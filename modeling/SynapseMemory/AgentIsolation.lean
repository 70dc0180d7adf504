import SynapseMemory.Agent

/-!
# Isolation of agent scopes

Two facts keep agents apart. Scopes are **injective**: a component is escaped so that it has no
`/`, and escaping loses nothing, so the agent and the project can be read back from the scope. And
the tools read a database only through its **restriction** to the scope.

For `agent_search_index` the statements name the scope. `agent_get_observations` asks for its ids
in any scope and drops the others afterwards, so what it does see of them is their number and size:
a request for more ids than the daemon returns rows, or for rows that do not fit a frame, fails
because of documents in other scopes. Within these limits it sees only the scope, and
`agent_context`, which asks for ids it has from the index, always does.
-/

namespace SynapseMemory

namespace Agent

open Proto

/-! ## Scopes -/

/-- What becomes of one character of a component. -/
def escape (c : Char) : Text :=
  if c = '%' then ['%', '2', '5'] else if c = '/' then ['%', '2', 'F'] else [c]

/-- The loop writes each character on its own. -/
theorem scopeComponent_eq (t : Text) : scopeComponent t = t.flatMap escape := by
  rw [scopeComponent, replace, replace, List.flatMap_assoc]
  refine List.flatMap_congr fun c _ => ?_
  by_cases hpercent : c = '%'
  · subst hpercent
    rfl
  · by_cases hslash : c = '/'
    · subst hslash
      rfl
    · simp [escape, hpercent, hslash]

/-- A component has no slash, so the parts of a scope can be told apart. -/
theorem slash_not_mem (t : Text) : '/' ∉ scopeComponent t := by
  rw [scopeComponent_eq, List.mem_flatMap]
  rintro ⟨c, -, hc⟩
  unfold escape at hc
  split at hc
  · exact absurd hc (by decide)
  · split at hc
    · exact absurd hc (by decide)
    · rename_i hslash
      exact hslash (List.mem_singleton.mp hc).symm

theorem escape_ne_nil (c : Char) : escape c ≠ [] := by
  unfold escape
  split
  · exact List.cons_ne_nil _ _
  · split <;> exact List.cons_ne_nil _ _

/-- The first character of an escaped text can be read back. -/
theorem escape_append_inj {c c' : Char} {t t' : Text} (h : escape c ++ t = escape c' ++ t') :
    c = c' ∧ t = t' := by
  have hcases : ∀ x, x = '%' ∧ escape x = ['%', '2', '5'] ∨
      x = '/' ∧ escape x = ['%', '2', 'F'] ∨ x ≠ '%' ∧ escape x = [x] := by
    intro x
    unfold escape
    split
    · exact .inl ⟨‹_›, rfl⟩
    · split
      · exact .inr (.inl ⟨‹_›, rfl⟩)
      · exact .inr (.inr ⟨‹_›, rfl⟩)
  rcases hcases c with ⟨rfl, he⟩ | ⟨rfl, he⟩ | ⟨hc, he⟩ <;>
    rcases hcases c' with ⟨rfl, he'⟩ | ⟨rfl, he'⟩ | ⟨hc', he'⟩ <;>
    simp only [he, he', List.cons_append, List.nil_append, List.cons.injEq] at h <;> grind

/-- Two texts with one component are the same. -/
theorem scopeComponent_injective {t t' : Text} (h : scopeComponent t = scopeComponent t') :
    t = t' := by
  rw [scopeComponent_eq, scopeComponent_eq] at h
  induction t generalizing t' with
  | nil =>
    cases t' with
    | nil => rfl
    | cons c rest => exact absurd (List.append_eq_nil_iff.mp h.symm).1 (escape_ne_nil c)
  | cons c rest ih =>
    cases t' with
    | nil => exact absurd (List.append_eq_nil_iff.mp h).1 (escape_ne_nil c)
    | cons c' rest' =>
      obtain ⟨rfl, hrest⟩ := escape_append_inj h
      rw [ih hrest]

/-- The agent and the project can be read back from a scope. -/
theorem scopeText_injective {agentId agentId' : Text} {project project' : Option Text}
    (h : scopeText agentId project = scopeText agentId' project') :
    agentId = agentId' ∧ project = project' := by
  cases project with
  | none =>
    cases project' with
    | none => exact ⟨scopeComponent_injective (List.append_cancel_left h), rfl⟩
    | some project' =>
      have hmem : '/' ∈ scopeComponent agentId := by
        rw [List.append_cancel_left h]
        exact List.mem_append_right _ List.mem_cons_self
      exact absurd hmem (slash_not_mem agentId)
  | some project =>
    cases project' with
    | none =>
      have hmem : '/' ∈ scopeComponent agentId' := by
        rw [← List.append_cancel_left h]
        exact List.mem_append_right _ List.mem_cons_self
      exact absurd hmem (slash_not_mem agentId')
    | some project' =>
      obtain ⟨hproject, -, hagent⟩ := (List.append_cons_inj_of_notMem (slash_not_mem project)
        (slash_not_mem agentId)).mp (List.append_cancel_left h)
      rw [scopeComponent_injective hproject, scopeComponent_injective hagent]
      exact ⟨rfl, rfl⟩

/-- **Scopes are injective.** -/
theorem agentScope_injective {args args' : Json} {sc sc' : AgentScope}
    (h : agentScope args = .ok sc) (h' : agentScope args' = .ok sc') (heq : sc.scope = sc'.scope) :
    sc.agentId = sc'.agentId ∧ sc.project = sc'.project := by
  have hscope : ∀ {args : Json} {sc : AgentScope}, agentScope args = .ok sc →
      sc.scope.toList = scopeText sc.agentId.toList (sc.project.map String.toList) := by
    intro args sc h
    unfold agentScope at h
    split at h
    · cases h
    · obtain rfl := Except.ok.inj h
      rw [String.toList_ofList]
  have htext := (hscope h).symm.trans ((congrArg String.toList heq).trans (hscope h'))
  obtain ⟨hagent, hproject⟩ := scopeText_injective htext
  exact ⟨String.toList_inj.mp hagent,
    Option.map_injective (fun _ _ => String.toList_inj.mp) hproject⟩

/-! ## The view of a scope -/

/-- The documents of a scope. -/
def Db.view (db : Db) (scope : String) : List Doc :=
  db.docs.filter fun d => docScope d = some scope

/-- Two databases agree on the documents of a scope. -/
def Agree (scope : String) (db db' : Db) : Prop :=
  ∀ d, docScope d = some scope → (d ∈ db.docs ↔ d ∈ db'.docs)

theorem mem_view {db : Db} {scope : String} {d : Doc} :
    d ∈ db.view scope ↔ d ∈ db.docs ∧ docScope d = some scope := by
  rw [Db.view, List.mem_filter, decide_eq_true_eq]

/-- An id is given to one document. -/
theorem Db.eq_of_id (db : Db) {d d' : Doc} (hd : d ∈ db.docs) (hd' : d' ∈ db.docs)
    (hid : d.id = d'.id) : d = d' := by
  have hnodup : (db.docs.map Doc.id).Nodup :=
    List.pairwise_map.mpr (db.sorted.imp fun hlt => Int.ne_of_lt hlt)
  exact List.inj_on_of_nodup_map hnodup hd hd' hid

theorem Agree.view_eq {scope : String} {db db' : Db} (h : Agree scope db db') :
    db.view scope = db'.view scope := by
  have : Std.Irrefl fun a b : Doc => a.id < b.id := ⟨fun d => Int.lt_irrefl d.id⟩
  have : Std.Antisymm fun a b : Doc => a.id < b.id :=
    ⟨fun a b hab hba => absurd hba (Int.lt_asymm hab)⟩
  refine (db.sorted.filter _).eq_of_mem_iff (db'.sorted.filter _) fun d => ?_
  change d ∈ db.view scope ↔ d ∈ db'.view scope
  rw [mem_view, mem_view]
  exact and_congr_left fun hscope => h d hscope

/-! ## Statements -/

theorem ok_bind {ε α β : Type} (a : α) (f : α → Except ε β) : (Except.ok a >>= f) = f a := rfl

theorem error_bind {ε α β : Type} (e : ε) (f : α → Except ε β) :
    (Except.error e >>= f) = .error e := rfl

section Select

variable {db db' : Db} {scope : String}

/-- A search by words sees the view of its scope only. -/
theorem select_matching_eq (hview : db.view scope = db'.view scope) (terms : List Text)
    (limit : ℕ) :
    db.select (.matching scope terms limit) = db'.select (.matching scope terms limit) := by
  have hfactor : ∀ db : Db, (db.docs.filter fun d =>
      docScope d = some scope && terms.any (mentions d)) =
        (db.view scope).filter fun d => terms.any (mentions d) := by
    intro db
    rw [Db.view, List.filter_filter]
    exact List.filter_congr fun d _ => Bool.and_comm _ _
  rw [Db.select, Db.select, List.filter_reverse, List.filter_reverse, hfactor db, hfactor db',
    hview]

theorem select_recent_eq (hview : db.view scope = db'.view scope) (limit : ℕ) :
    db.select (.recent scope limit) = db'.select (.recent scope limit) := by
  rw [Db.select, Db.select, List.filter_reverse, List.filter_reverse]
  change ((db.view scope).reverse.take limit).map clip = _
  rw [hview]
  rfl

/-- Ids asked for in any scope, with the other scopes dropped afterwards. -/
theorem filter_select_byIds (db : Db) (scope : String) (ids : List ℤ) :
    ((db.select (.byIds ids)).filter fun d => docScope d = some scope) =
      (db.view scope).filter fun d => d.id ∈ ids := by
  rw [Db.select, Db.view, List.filter_filter, List.filter_filter]
  exact List.filter_congr fun d _ => Bool.and_comm _ _

/-- Ids that are known to be in the scope. -/
theorem select_byIds_of_view {ids : List ℤ} (hids : ∀ id ∈ ids, ∃ d ∈ db.view scope, d.id = id) :
    db.select (.byIds ids) = (db.view scope).filter fun d => d.id ∈ ids := by
  rw [Db.select, Db.view, List.filter_filter]
  refine List.filter_congr fun d hd => ?_
  by_cases hid : d.id ∈ ids
  · obtain ⟨d', hd', heq⟩ := hids d.id hid
    obtain ⟨hmem, hscope⟩ := mem_view.mp hd'
    obtain rfl := db.eq_of_id hmem hd heq
    simp [hscope]
  · simp [hid]

/-- No more rows than ids come back. -/
theorem length_select_byIds_le (db : Db) (ids : List ℤ) :
    (db.select (.byIds ids)).length ≤ ids.dedup.length := by
  have hnodup : ((db.select (.byIds ids)).map Doc.id).Nodup :=
    List.pairwise_map.mpr ((db.sorted.filter _).imp fun hlt => Int.ne_of_lt hlt)
  have hsub : (db.select (.byIds ids)).map Doc.id ⊆ ids.dedup := by
    intro id hid
    obtain ⟨d, hd, rfl⟩ := List.mem_map.mp hid
    rw [Db.select, List.mem_filter, decide_eq_true_eq] at hd
    exact List.mem_dedup.mpr hd.2
  have hle := (List.subperm_of_subset hnodup hsub).length_le
  rwa [List.length_map] at hle

theorem sqlRows_congr (h : Host) {q : Statement} (hselect : db.select q = db'.select q) :
    sqlRows h db q = sqlRows h db' q := by
  rw [sqlRows, sqlRows, hselect]

/-- The rows of the ids fit one response. -/
def FitsFrame (h : Host) (db : Db) (ids : List ℤ) : Prop :=
  h.encodedLen (db.select (.byIds ids)) < 2 ^ 32

theorem sqlRows_byIds {h : Host} {ids : List ℤ} (hids : ids.dedup.length ≤ maxSqlRows)
    (hfits : FitsFrame h db ids) :
    sqlRows h db (.byIds ids) = (do
      h.send (.byIds ids)
      if !h.accepts (.byIds ids) then .error "SQL response missing Rows"
      else .ok (db.select (.byIds ids))) := by
  rw [sqlRows, if_neg (Nat.not_lt.mpr ((length_select_byIds_le db ids).trans hids)),
    if_neg (Nat.not_le.mpr hfits)]

/-- Rows that come back are those that the statement selects. -/
theorem eq_select_of_sqlRows {h : Host} {q : Statement} {rows : List Doc}
    (hok : sqlRows h db q = .ok rows) : rows = db.select q := by
  obtain ⟨u, -, hok⟩ := bind_eq_ok.mp hok
  split at hok
  · cases hok
  · split at hok
    · cases hok
    · split at hok
      · cases hok
      · exact (Except.ok.inj hok).symm

/-- The scoped statements give documents of the scope, with their text clipped. -/
theorem mem_view_of_matching {terms : List Text} {limit : ℕ} {d : Doc}
    (hd : d ∈ db.select (.matching scope terms limit)) : ∃ d' ∈ db.view scope, d'.id = d.id := by
  obtain ⟨d', hd', rfl⟩ := List.mem_map.mp hd
  obtain ⟨hmem, hcond⟩ := List.mem_filter.mp (List.mem_of_mem_take hd')
  rw [Bool.and_eq_true, decide_eq_true_eq] at hcond
  exact ⟨d', mem_view.mpr ⟨List.mem_reverse.mp hmem, hcond.1⟩, rfl⟩

theorem mem_view_of_recent {limit : ℕ} {d : Doc} (hd : d ∈ db.select (.recent scope limit)) :
    ∃ d' ∈ db.view scope, d'.id = d.id := by
  obtain ⟨d', hd', rfl⟩ := List.mem_map.mp hd
  obtain ⟨hmem, hcond⟩ := List.mem_filter.mp (List.mem_of_mem_take hd')
  exact ⟨d', mem_view.mpr ⟨List.mem_reverse.mp hmem, of_decide_eq_true hcond⟩, rfl⟩

theorem sqlRows_of_many {h : Host} {q : Statement} (hsend : h.send q = .ok ())
    (haccepts : h.accepts q = true) (hmany : maxSqlRows < (db.select q).length) :
    sqlRows h db q = .error "SQL response missing Rows" := by
  rw [sqlRows, hsend, ok_bind, haccepts, if_pos hmany]
  rfl

end Select

/-! ## The tools -/

section Tools

variable [Unicode] {h : Host} {db db' : Db} {args : Json} {sc : AgentScope}

theorem agentSearchIndex_eq (hsc : agentScope args = .ok sc)
    (hview : db.view sc.scope = db'.view sc.scope) :
    agentSearchIndex h db args = agentSearchIndex h db' args := by
  have hmatching := fun terms limit => sqlRows_congr h (select_matching_eq hview terms limit)
  have hrecent := fun limit => sqlRows_congr h (select_recent_eq hview limit)
  simp only [agentSearchIndex, hsc, ok_bind, hmatching, hrecent]

/-- Only the rows of the scope matter to `agent_get_observations`. -/
theorem agentGetObservations_congr (hsc : agentScope args = .ok sc)
    (hrows : (sqlRows h db (.byIds (requestedIds args))).map
        (List.filter fun d => docScope d = some sc.scope) =
      (sqlRows h db' (.byIds (requestedIds args))).map
        (List.filter fun d => docScope d = some sc.scope)) :
    agentGetObservations h db args = agentGetObservations h db' args := by
  simp only [agentGetObservations, hsc, ok_bind]
  generalize sqlRows h db (.byIds (requestedIds args)) = rows at hrows
  generalize sqlRows h db' (.byIds (requestedIds args)) = rows' at hrows
  split
  · rfl
  · cases rows with
    | error e =>
      cases rows' with
      | error e' =>
        cases hrows
        rfl
      | ok rows' => cases hrows
    | ok rows =>
      cases rows' with
      | error e' => cases hrows
      | ok rows' =>
        rw [ok_bind, ok_bind, Except.ok.inj hrows]

/-- Within the limits of a response, `agent_get_observations` sees only the scope. -/
theorem agentGetObservations_eq (hsc : agentScope args = .ok sc)
    (hview : db.view sc.scope = db'.view sc.scope)
    (hids : (requestedIds args).dedup.length ≤ maxSqlRows)
    (hfits : FitsFrame h db (requestedIds args)) (hfits' : FitsFrame h db' (requestedIds args)) :
    agentGetObservations h db args = agentGetObservations h db' args := by
  refine agentGetObservations_congr hsc ?_
  rw [sqlRows_byIds hids hfits, sqlRows_byIds hids hfits']
  cases h.send (.byIds (requestedIds args)) with
  | error e => rfl
  | ok u =>
    rw [ok_bind, ok_bind]
    split
    · rfl
    · simp only [Except.map, filter_select_byIds, hview]

omit [Unicode] in
/-- Removing repeated ids adds no document. -/
theorem mem_of_mem_dedupById {seen : List ℤ} {docs : List Doc} {d : Doc}
    (hd : d ∈ dedupById seen docs) : d ∈ docs := by
  induction docs generalizing seen with
  | nil => exact hd
  | cons x rest ih =>
    rw [dedupById] at hd
    split at hd
    · exact List.mem_cons_of_mem _ (ih hd)
    · rcases List.mem_cons.mp hd with rfl | hd
      · exact List.mem_cons_self
      · exact List.mem_cons_of_mem _ (ih hd)

/-- Ids that are known to be in the scope need no limit. -/
theorem agentGetObservations_eq_of_view (hsc : agentScope args = .ok sc)
    (hview : db.view sc.scope = db'.view sc.scope)
    (hids : ∀ id ∈ requestedIds args, ∃ d ∈ db.view sc.scope, d.id = id) :
    agentGetObservations h db args = agentGetObservations h db' args := by
  have hselect : db.select (.byIds (requestedIds args)) =
      db'.select (.byIds (requestedIds args)) := by
    rw [select_byIds_of_view hids, hview]
    rw [hview] at hids
    rw [select_byIds_of_view hids]
  exact agentGetObservations_congr hsc (by rw [sqlRows_congr h hselect])

/-- Every hit of the index is a document of the scope. -/
theorem mem_view_of_hit {r : IndexResponse} (hsc : agentScope args = .ok sc)
    (hr : agentSearchIndex h db args = .ok r) {hit : IndexHit} (hhit : hit ∈ r.index) :
    ∃ d ∈ db.view sc.scope, d.id = hit.id := by
  have hindex : ∃ query limit snippetChars, ∃ docs : List Doc,
      (∀ d ∈ docs, ∃ d' ∈ db.view sc.scope, d'.id = d.id) ∧
      r.index = ((rankDocs query (dedupById [] docs)).take limit).zipIdx.map fun p =>
        compactHit h (p.2 + 1) p.1 snippetChars := by
    simp only [agentSearchIndex, hsc, ok_bind] at hr
    obtain ⟨query, -, hr⟩ := bind_eq_ok.mp hr
    -- without terms there are only the recent documents
    split at hr
    · obtain ⟨queryRows, hquery, hr⟩ := bind_eq_ok.mp hr
      obtain ⟨recentRows, hrecent, hr⟩ := bind_eq_ok.mp hr
      obtain rfl := Except.ok.inj hquery
      obtain rfl := Except.ok.inj hr
      refine ⟨_, _, _, _, fun d hd => ?_, rfl⟩
      rw [List.nil_append, eq_select_of_sqlRows hrecent] at hd
      exact mem_view_of_recent hd
    · obtain ⟨queryRows, hquery, hr⟩ := bind_eq_ok.mp hr
      obtain ⟨recentRows, hrecent, hr⟩ := bind_eq_ok.mp hr
      obtain rfl := Except.ok.inj hr
      refine ⟨_, _, _, _, fun d hd => ?_, rfl⟩
      rcases List.mem_append.mp hd with hd | hd
      · rw [eq_select_of_sqlRows hquery] at hd
        exact mem_view_of_matching hd
      · rw [eq_select_of_sqlRows hrecent] at hd
        exact mem_view_of_recent hd
  obtain ⟨query, limit, snippetChars, docs, hdocs, heq⟩ := hindex
  rw [heq] at hhit
  obtain ⟨⟨d, idx⟩, hd, rfl⟩ := List.mem_map.mp hhit
  have hranked : d ∈ rankDocs query (dedupById [] docs) :=
    List.mem_of_mem_take (List.fst_mem_of_mem_zipIdx hd)
  exact hdocs d (mem_of_mem_dedupById (List.mem_mergeSort.mp hranked))

/-- The index only loses hits to the budget. -/
theorem fitIndex_subset (budget used : ℕ) (index hits : List IndexHit) {hit : IndexHit}
    (hhit : hit ∈ (fitIndex budget used index hits).1) : hit ∈ index ∨ hit ∈ hits := by
  induction hits generalizing used index with
  | nil => exact .inl hhit
  | cons x rest ih =>
    rw [fitIndex] at hhit
    split at hhit
    · exact .inl hhit
    · split at hhit
      · exact (ih _ _ hhit).imp_right (List.mem_cons_of_mem _)
      · rcases ih _ _ hhit with hmem | hmem
        · rcases List.mem_append.mp hmem with hmem | hmem
          · exact .inl hmem
          · exact .inr (List.mem_singleton.mp hmem ▸ List.mem_cons_self)
        · exact .inr (List.mem_cons_of_mem _ hmem)

omit [Unicode] in
/-- The agent and the project are passed on. -/
theorem agentScope_innerArgs (args : Json) (more : List (String × Json)) :
    agentScope (innerArgs args more) = agentScope args := by
  have hnull : ∀ v : Option Json, (v.getD .null).asStr = v.bind Json.asStr := by
    intro v
    cases v <;> rfl
  have hagent : nonEmptyArg (innerArgs args more) "agent_id" = nonEmptyArg args "agent_id" := by
    rw [nonEmptyArg, nonEmptyArg, ← hnull (args.get "agent_id")]
    rfl
  have hproject : nonEmptyArg (innerArgs args more) "project" = nonEmptyArg args "project" := by
    rw [nonEmptyArg, nonEmptyArg, ← hnull (args.get "project")]
    rfl
  rw [agentScope, agentScope, hagent, hproject]

omit [Unicode] in
/-- The ids asked for are those of the hits. -/
theorem mem_requestedIds_innerArgs {index : List IndexHit} {id : ℤ}
    (hid : id ∈ requestedIds
      (innerArgs args [("ids", .arr (index.map fun hit => Json.int hit.id))])) :
    ∃ hit ∈ index, hit.id = id := by
  have hlist : requestedIds (innerArgs args [("ids", .arr (index.map fun hit => Json.int hit.id))])
      = (index.map fun hit => Json.int hit.id).filterMap Json.asI64 := rfl
  rw [hlist] at hid
  obtain ⟨v, hv, hsome⟩ := List.mem_filterMap.mp hid
  obtain ⟨hit, hhit, rfl⟩ := List.mem_map.mp hv
  rw [Json.asI64] at hsome
  split at hsome
  · exact ⟨hit, hhit, Option.some.inj hsome⟩
  · cases hsome

/-- `agent_context` sees only the scope: it asks for ids that it has from the index. -/
theorem agentContext_eq (hsc : agentScope args = .ok sc)
    (hview : db.view sc.scope = db'.view sc.scope) :
    agentContext h db args = agentContext h db' args := by
  have hinner : ∀ more, agentScope (innerArgs args more) = .ok sc := fun more =>
    (agentScope_innerArgs args more).trans hsc
  have hsearch : ∀ more, agentSearchIndex h db (innerArgs args more) =
      agentSearchIndex h db' (innerArgs args more) := fun more =>
    agentSearchIndex_eq (hinner more) hview
  simp only [agentContext, hsc, ok_bind, ← hsearch]
  cases required "query" ((args.get "query").bind Json.asStr) with
  | error e => rfl
  | ok query =>
    rw [ok_bind, ok_bind]
    cases hresp : agentSearchIndex h db (innerArgs args
      [("query", .str query), ("limit", .int (numberArg args "index_k" 8)),
        ("snippet_chars", .int 220)]) with
    | error e => rfl
    | ok resp =>
      rw [ok_bind, ok_bind]
      generalize hfit : fitIndex (numberArg args "token_budget" 800)
        (Pack.estimateTokens query.toList + 64) [] resp.index = fit
      -- the ids are those of documents of the scope, so their rows are the same in both databases
      have hobs : agentGetObservations h db
          (innerArgs args [("ids", .arr (fit.1.map fun hit => Json.int hit.id))]) =
          agentGetObservations h db'
            (innerArgs args [("ids", .arr (fit.1.map fun hit => Json.int hit.id))]) := by
        refine agentGetObservations_eq_of_view (hinner _) hview fun id hid => ?_
        obtain ⟨hit, hhit, rfl⟩ := mem_requestedIds_innerArgs hid
        rw [← hfit] at hhit
        exact mem_view_of_hit (hinner _) hresp
          ((fitIndex_subset _ _ _ _ hhit).resolve_left List.not_mem_nil)
      simp only [hobs]

end Tools

/-! ## Isolation -/

/-- **Agent scope isolation.** Databases that agree on the documents of the scope give the same
index, the same context, and the same observations as long as the rows of the ids fit a response;
and different agents or projects have different scopes. -/
theorem scope_isolation [Unicode] (h : Host) :
    (∀ (args : Json) (db db' : Db),
      (∀ sc, agentScope args = .ok sc → Agree sc.scope db db') →
        agentSearchIndex h db args = agentSearchIndex h db' args ∧
        agentContext h db args = agentContext h db' args ∧
        ((requestedIds args).dedup.length ≤ maxSqlRows → FitsFrame h db (requestedIds args) →
          FitsFrame h db' (requestedIds args) →
            agentGetObservations h db args = agentGetObservations h db' args)) ∧
      ∀ (args args' : Json) (sc sc' : AgentScope), agentScope args = .ok sc →
        agentScope args' = .ok sc' → sc.scope = sc'.scope →
          sc.agentId = sc'.agentId ∧ sc.project = sc'.project := by
  refine ⟨fun args db db' hagree => ?_, fun args args' sc sc' => agentScope_injective⟩
  cases hsc : agentScope args with
  | error e =>
    simp only [agentSearchIndex, agentContext, agentGetObservations, hsc, error_bind, implies_true,
      and_self]
  | ok sc =>
    have hview := (hagree sc hsc).view_eq
    exact ⟨agentSearchIndex_eq hsc hview, agentContext_eq hsc hview,
      fun hids hfits hfits' => agentGetObservations_eq hsc hview hids hfits hfits'⟩

/-- A daemon that answers at once, with the limit on the variables of a statement. -/
def plainHost : Host where
  send := fun _ => .ok ()
  accepts
    | .byIds ids => ids.length ≤ 32766
    | _ => true
  encodedLen := fun rows => 64 + (rows.map fun d => 128 + d.text.utf8ByteSize).sum
  decodeError := fun _ => "invalid type"
  f64OfInt := fun _ => 0
  expired := fun _ => false
  percent := fun _ _ => 0

/-- An observation of the agent `a` in the project `p/q`. -/
def scopedDoc : Doc :=
  ⟨1, none, some "note", "the index is warm", some (.obj [("scope", .str "agent/p%2Fq/a")]), 0⟩

/-- An observation of the agent `b` in the same project. -/
def foreignDoc : Doc :=
  ⟨2, none, none, "the index is cold", some (.obj [("scope", .str "agent/p%2Fq/b")]), 0⟩

/-- The document of one scope alone. -/
def soloDb : Db := ⟨[scopedDoc], List.pairwise_singleton _ _⟩

/-- The same with a document of another scope. -/
def sharedDb : Db := ⟨[scopedDoc, foreignDoc], by decide⟩

/-- The agent `a` asks for both. -/
def bothArgs : Json :=
  .obj [("agent_id", .str "a"), ("project", .str "p/q"), ("query", .str "index"),
    ("ids", .arr [.int 1, .int 2])]

/-- The agent `a` of another project. -/
def escapedArgs : Json := .obj [("agent_id", .str "a"), ("project", .str "p%2Fq")]

/-- The three tools return the same with the document of the other scope and without it. -/
theorem bothArgs_isolated :
    @agentSearchIndex Unicode.asciiOnly plainHost sharedDb bothArgs =
        @agentSearchIndex Unicode.asciiOnly plainHost soloDb bothArgs ∧
      @agentContext Unicode.asciiOnly plainHost sharedDb bothArgs =
        @agentContext Unicode.asciiOnly plainHost soloDb bothArgs ∧
      @agentGetObservations Unicode.asciiOnly plainHost sharedDb bothArgs =
        @agentGetObservations Unicode.asciiOnly plainHost soloDb bothArgs ∧
      ∃ sc sc', agentScope bothArgs = .ok sc ∧ agentScope escapedArgs = .ok sc' ∧
        sc.scope ≠ sc'.scope := by
  have hsc : agentScope bothArgs = .ok ⟨"a", some "p/q", "agent/p%2Fq/a"⟩ := rfl
  have hagree : ∀ sc, agentScope bothArgs = .ok sc → Agree sc.scope sharedDb soloDb := by
    intro sc hok
    obtain rfl := Except.ok.inj (hsc.symm.trans hok)
    intro d hd
    have hforeign : d ≠ foreignDoc := by
      rintro rfl
      exact absurd hd (by decide)
    simp [sharedDb, soloDb, hforeign]
  obtain ⟨hindex, hcontext, hobs⟩ :=
    (@scope_isolation Unicode.asciiOnly plainHost).1 bothArgs sharedDb soloDb hagree
  have hfits : FitsFrame plainHost sharedDb (requestedIds bothArgs) := by
    unfold FitsFrame
    decide
  have hfits' : FitsFrame plainHost soloDb (requestedIds bothArgs) := by
    unfold FitsFrame
    decide
  have hescaped : agentScope escapedArgs = .ok ⟨"a", some "p%2Fq", "agent/p%252Fq/a"⟩ := rfl
  refine ⟨hindex, hcontext, hobs (by decide) hfits hfits', _, _, hsc, hescaped, fun heq => ?_⟩
  have hsame := ((@scope_isolation Unicode.asciiOnly plainHost).2 _ _ _ _ hsc hescaped heq).2
  exact absurd hsame (by decide)

/-- A document without `meta`. -/
def plainDoc (n : ℕ) : Doc := ⟨n + 1, none, none, toString n, none, 0⟩

/-- As many documents as asked for, none of them in a scope. -/
def plainDocs (n : ℕ) : Db where
  docs := (List.range n).map plainDoc
  sorted := List.pairwise_map.mpr (List.pairwise_lt_range.imp fun hlt =>
    Int.add_lt_add_right (Int.ofNat_lt.mpr hlt) 1)

/-- A request for the first ids. -/
def firstIds (n : ℕ) : Json :=
  .obj [("agent_id", .str "a"), ("ids", .arr ((List.range n).map fun i : ℕ => .int (i + 1)))]

theorem plainDocs_agree (scope : String) (n m : ℕ) : Agree scope (plainDocs n) (plainDocs m) := by
  have hnone : ∀ k d, d ∈ (plainDocs k).docs → docScope d = none := by
    intro k d hd
    obtain ⟨i, -, rfl⟩ := List.mem_map.mp hd
    rfl
  intro d hd
  constructor <;> intro hmem <;> rw [hnone _ d hmem] at hd <;> cases hd

/-- The ids from 1 on, as they are parsed. -/
theorem requestedIds_firstIds {n : ℕ} (hn : n < 2 ^ 63) :
    requestedIds (firstIds n) = (List.range n).map fun i : ℕ => (i + 1 : ℤ) := by
  have hlist : requestedIds (firstIds n) =
      ((List.range n).map fun i : ℕ => Json.int (i + 1)).filterMap Json.asI64 := rfl
  have hasI64 : ∀ i ∈ List.range n,
      (Json.asI64 ∘ fun i : ℕ => Json.int (i + 1)) i = some (i + 1 : ℤ) := by
    intro i hi
    have hlt := List.mem_range.mp hi
    have hbounds : -2 ^ 63 ≤ (i + 1 : ℤ) ∧ (i + 1 : ℤ) < 2 ^ 63 := by omega
    rw [Function.comp_apply, Json.asI64, if_pos hbounds]
  rw [hlist, List.filterMap_map, List.filterMap_congr hasI64, List.filterMap_eq_map']

/-- The rows of the ids are all the documents. -/
theorem select_plainDocs {n : ℕ} (hn : n < 2 ^ 63) :
    ((plainDocs n).select (.byIds (requestedIds (firstIds n)))).length = n := by
  have hall : (plainDocs n).select (.byIds (requestedIds (firstIds n))) = (plainDocs n).docs := by
    rw [Db.select, requestedIds_firstIds hn]
    refine List.filter_eq_self.mpr fun d hd => decide_eq_true ?_
    obtain ⟨i, hi, rfl⟩ := List.mem_map.mp hd
    exact List.mem_map.mpr ⟨i, hi, rfl⟩
  rw [hall, plainDocs, List.length_map, List.length_range]

/-- With one document more than the daemon returns rows, all of them in no scope, the request for
their ids fails, and on an empty database it does not. -/
theorem observations_differ :
    (∀ sc, agentScope (firstIds 10001) = .ok sc → Agree sc.scope (plainDocs 10001) (plainDocs 0)) ∧
      @agentGetObservations Unicode.asciiOnly plainHost (plainDocs 10001) (firstIds 10001) ≠
        @agentGetObservations Unicode.asciiOnly plainHost (plainDocs 0) (firstIds 10001) := by
  refine ⟨fun sc _ => plainDocs_agree _ _ _, ?_⟩
  have hlength := select_plainDocs (n := 10001) (by decide)
  have hids : (requestedIds (firstIds 10001)).length = 10001 := by
    rw [requestedIds_firstIds (by decide), List.length_map, List.length_range]
  have hsc : agentScope (firstIds 10001) = .ok ⟨"a", none, "agent/a"⟩ := rfl
  have hne : (requestedIds (firstIds 10001)).isEmpty = false := by
    rw [List.isEmpty_eq_false_iff, ← List.length_pos_iff, hids]
    decide
  have haccepts : plainHost.accepts (.byIds (requestedIds (firstIds 10001))) = true := by
    simp only [plainHost, hids]
    decide
  have hmany : sqlRows plainHost (plainDocs 10001) (.byIds (requestedIds (firstIds 10001))) =
      .error "SQL response missing Rows" :=
    sqlRows_of_many rfl haccepts (by rw [hlength]; decide)
  have hnone : sqlRows plainHost (plainDocs 0) (.byIds (requestedIds (firstIds 10001))) =
      .ok [] := by
    rw [sqlRows, haccepts]
    rfl
  simp only [agentGetObservations, hsc, ok_bind, hne, hmany, hnone, error_bind]
  nofun

end Agent

end SynapseMemory
