import SynapseMemory.ContextPack
import SynapseMemory.ContextState
import SynapseMemory.Outcome
import SynapseMemory.Space

/-!
# Replay of a session

`session_ingest` stores the log of some turns as a document whose `meta` names the session and the
role of the agent. `session_replay` looks the documents of a session up and packs their texts, in
the order of their times.

It looks them up by the text of their `meta`: the session id is spliced into a `LIKE` pattern, and
the pattern into a statement. What SQLite makes of a statement of this shape is modelled from its
text (`readReplay`, `selectSession`), a quote in the id ends a literal there as it does in SQL. For
a statement of another shape, which only an id with a quote leads to, it is a parameter.

A document is **exact** for a session if its `meta` has that id and, where one is asked for, that
role. A replay is isolated if it depends on the exact documents only. It is so just when no `meta`
that is not exact matches the patterns (`isolated_iff`). An underscore in a pattern stands for any
character and letters match in either case, so ids that differ in a letter's case only, or in what
stands for an underscore, are replayed together (`underscore_leaks`).
-/

namespace SynapseMemory

namespace SessionReplay

open Proto Pack
open Outcome (asI64)

/-! ## The statement -/

/-- The quote that a literal stands between. -/
def apostrophe : Char := Char.ofNat 39

/-- A field of the text of a `meta`, between two `%`. -/
def fieldPattern (key value : String) : Text :=
  ['%', Json.quote] ++ key.toList ++ [Json.quote, ':', Json.quote] ++ value.toList ++
    [Json.quote, '%']

/-- A literal of a statement. -/
def literal (t : Text) : Text := apostrophe :: t ++ [apostrophe]

/-- The statement, up to its first pattern. -/
def selectDocs : Text := "SELECT id, title, text, meta, ts FROM docs WHERE meta LIKE ".toList

/-- What stands before another pattern. -/
def andMeta : Text := " AND meta LIKE ".toList

/-- The end of the statement. -/
def orderByTs : Text := " ORDER BY ts ASC LIMIT 200".toList

/-- The patterns the statement is meant to have. -/
def replayPatterns (sessionId : String) (agentRole : Option String) : List Text :=
  fieldPattern "session_id" sessionId :: (agentRole.map (fieldPattern "agent_role")).toList

/-- The statement, with the id and the role as they are. -/
def replayStatement (sessionId : String) (agentRole : Option String) : Text :=
  let session := literal (fieldPattern "session_id" sessionId)
  let filterClause :=
    match agentRole with
    | some role => session ++ andMeta ++ literal (fieldPattern "agent_role" role)
    | none => session
  selectDocs ++ filterClause ++ orderByTs

/-! ## Reading the statement -/

/-- The rest of a string literal, and what comes after it. A quote within it is written twice. A
statement ends at the character zero, and the literal is then not closed. -/
def readLiteral : Text → Option (Text × Text)
  | [] => none
  | c :: rest =>
    if c = apostrophe then
      match rest with
      | [] => some ([], [])
      | c' :: rest' =>
        if c' = apostrophe then (readLiteral rest').map fun r => (apostrophe :: r.1, r.2)
        else some ([], c' :: rest')
    else if c = Char.ofNat 0 then none
    else (readLiteral rest).map fun r => (c :: r.1, r.2)

/-- A string literal, and what comes after it. -/
def readString : Text → Option (Text × Text)
  | [] => none
  | c :: rest => if c = apostrophe then readLiteral rest else none

/-- The patterns of a statement that selects by `LIKE` as the tool means to. -/
def readReplay (stmt : Text) : Option (List Text) := do
  let rest ← stmt.dropPrefix? selectDocs
  let (pattern, rest) ← readString rest
  if rest = orderByTs then some [pattern]
  else
    let rest ← rest.dropPrefix? andMeta
    let (pattern', rest) ← readString rest
    if rest = orderByTs then some [pattern, pattern'] else none

/-! ## The rows -/

section Rows

variable [FloatText]

/-- `meta LIKE pattern`, which a null is not. -/
def metaLike (pattern : Text) : Option Json → Bool
  | some m => Agent.like pattern (Json.render m)
  | none => false

/-- The `WHERE` of a row. SQLite refuses a pattern that is too long, and does not get to the second
one if the first fails. -/
def whereMeta : List Text → Option Json → Except String Bool
  | [], _ => .ok true
  | pattern :: rest, m =>
    if Space.maxLikePattern < Text.len pattern then .error "LIKE or GLOB pattern too complex"
    else if metaLike pattern m then whereMeta rest m
    else .ok false

/-- The rows that the condition keeps. -/
def whereRows (patterns : List Text) : List Doc → Except String (List Doc)
  | [] => .ok []
  | d :: rest => do
    let keep ← whereMeta patterns d.meta_
    let rows ← whereRows patterns rest
    .ok (if keep then d :: rows else rows)

/-- The first row is not later than the second. -/
def byTs (a b : Doc) : Bool := a.ts ≤ b.ts

/-- The rows of a session, oldest first. -/
def selectSession (patterns : List Text) (docs : List Doc) : Except String (List Doc) :=
  (whereRows patterns docs).map fun rows => (rows.mergeSort byTs).take 200

/-- A row as the tool reads it. -/
structure SessionRow where
  id : ℤ
  title : Text
  text : Text
  meta_ : Json

/-- A row of the answer. -/
def sessionRow (d : Doc) : SessionRow :=
  ⟨d.id, (d.title.getD "").toList, d.text.toList, Agent.docMeta d⟩

/-- What SQLite answers to any other statement. -/
class OtherSql where
  query : List Doc → Text → Except String (List SessionRow)

/-- Any other statement is an error. -/
@[reducible] def OtherSql.refuse : OtherSql := ⟨fun _ _ => .error "syntax error"⟩

/-- The rows that the daemon gives for a statement. -/
def sqlRows [OtherSql] (docs : List Doc) (stmt : Text) : Except String (List SessionRow) :=
  match readReplay stmt with
  | some patterns => (selectSession patterns docs).map (List.map sessionRow)
  | none => OtherSql.query docs stmt

end Rows

/-! ## The tools -/

/-- A string argument, or its default. -/
def strArg (args : Json) (key default_ : String) : String :=
  ((args.get key).bind Json.asStr).getD default_

/-- One line of the log, with at most 500 characters of the content. -/
def eventLine (ev : Json) : Text :=
  "[t".toList ++ (toString (Agent.numberArg ev "turn" 0)).toList ++ " ".toList ++
    (strArg ev "kind" "event").toList ++ " ".toList ++ (strArg ev "tool" "").toList ++
    "] ".toList ++ (strArg ev "content" "").toList.take 500 ++ "\n".toList

/-- The text that a session is logged as. -/
def sessionLog (events : List Json) (summary : String) : Text :=
  events.flatMap eventLine ++
    if summary = "" then []
    else "\n=== SUMMARY ===\n".toList ++ summary.toList ++ "\n".toList

/-- The `meta` of a part of a session. The fields of an object are sorted. -/
def sessionMeta (sessionId agentRole repo : String) (turnStart turnEnd : ℤ) : Json :=
  .obj ([("agent_role", .str agentRole), ("kind", .str "session-summary")] ++
    (if repo = "" then [] else [("repo", .str repo)]) ++
    [("schema", .str "synapse.ctxos.v1"), ("session_id", .str sessionId),
      ("turn_range", .arr [.int turnStart, .int turnEnd])])

/-- The title of a range of turns. -/
def sessionTitle (sessionId agentRole : String) (turnStart turnEnd : ℤ) : Text :=
  "session/".toList ++ sessionId.toList ++ "/".toList ++ agentRole.toList ++ "/t".toList ++
    (toString turnStart).toList ++ "-t".toList ++ (toString turnEnd).toList

/-- `session_ingest`: the request it sends. -/
def sessionIngest (args : Json) : Except Agent.PutError Agent.PutMessage := do
  let sessionId ← (Agent.required "session_id"
    ((args.get "session_id").bind Json.asStr)).mapError .tool
  let agentRole := strArg args "agent_role" "unknown"
  let events ← (Agent.required "events" ((args.get "events").bind Json.asArray)).mapError .tool
  let turnStart := asI64 (Agent.numberArg args "turn_start" 0)
  let turnEnd := asI64 (Agent.numberArg args "turn_end" 0)
  .ok { title := some (.str (String.ofList (sessionTitle sessionId agentRole turnStart turnEnd)))
        uri := some .null
        text := String.ofList (sessionLog events (strArg args "summary" ""))
        meta_ := some (sessionMeta sessionId agentRole (strArg args "repo" "") turnStart turnEnd)
        embed := true }

/-- The answer of `session_replay`. -/
inductive ReplayResponse where
  /-- nothing to replay -/
  | empty (sessionId : String) (budgetTokens : ℕ)
  | packed (packId sessionId : String) (events : ℕ) (context : Text) (usedIds : List ℤ)
      (usedTokens budgetTokens naiveTokens : ℕ) (savingsPct : F32)

section Replay

variable [H : ContextHost]

/-- A row with a text as a candidate. All of them weigh the same. -/
def candidate (r : SessionRow) : Option (Candidate H.S) :=
  if r.text.isEmpty then none
  else some ⟨r.id, r.title, r.text, Score.centi 100, ContextPack.hitKind r.title r.meta_⟩

variable [Unicode]

/-- The answer from the rows of a session. -/
def replayOf (sessionId : String) (budget : ℕ) (rows : List SessionRow) : ReplayResponse :=
  match rows.filterMap candidate with
  | [] => .empty sessionId budget
  | cands =>
    let opts : PackOptions := { budgetTokens := budget, headerReserve := 64 }
    let packed := pack opts cands
    let ids := ContextPack.usedIds packed
    .packed (ContextPack.packId sessionId ids) sessionId packed.blocks.length
      (ContextPack.renderPacked packed) ids packed.usedTokens packed.budgetTokens
      packed.naiveTokens (H.savingsPct packed.naiveTokens packed.usedTokens)

/-- There is nothing to replay just if no row has a text. -/
theorem replayOf_eq_empty {sessionId : String} {budget : ℕ} {rows : List SessionRow} :
    replayOf sessionId budget rows = .empty sessionId budget ↔ ∀ r ∈ rows, r.text = [] := by
  have hcands : rows.filterMap candidate = [] ↔ ∀ r ∈ rows, r.text = [] := by
    simp only [List.filterMap_eq_nil_iff, candidate, ite_eq_left_iff, reduceCtorEq, imp_false,
      not_not, List.isEmpty_iff]
  rw [← hcands, replayOf]
  cases rows.filterMap candidate with
  | nil => simp
  | cons c rest => simp

variable [FloatText] [Blake3] [OtherSql]

/-- The argument `agent_role`. -/
def roleArg (args : Json) : Option String := (args.get "agent_role").bind Json.asStr

/-- `session_replay`. A statement that fails counts as one without rows. -/
def sessionReplay (s : Store) (args : Json) : Except String ReplayResponse := do
  let sessionId ← Agent.required "session_id" ((args.get "session_id").bind Json.asStr)
  let rows := (sqlRows s.docs.rows (replayStatement sessionId (roleArg args))).toOption.getD []
  .ok (replayOf sessionId (Agent.numberArg args "budget_tokens" 8000) rows)

end Replay

/-! ## What the statement selects -/

/-- A text that ends no literal. -/
def Plain (t : Text) : Prop := ∀ c ∈ t, c ≠ apostrophe ∧ c ≠ Char.ofNat 0

instance (t : Text) : Decidable (Plain t) := List.decidableBAll _ t

theorem Plain.append {t t' : Text} (h : Plain t) (h' : Plain t') : Plain (t ++ t') := by
  intro c hc
  rcases List.mem_append.mp hc with hc | hc
  · exact h c hc
  · exact h' c hc

theorem fieldPattern_plain {key value : String} (hkey : Plain key.toList)
    (hvalue : Plain value.toList) : Plain (fieldPattern key value) := by
  have hopen : Plain ['%', Json.quote] := by decide
  have hbetween : Plain [Json.quote, ':', Json.quote] := by decide
  have hclose : Plain [Json.quote, '%'] := by decide
  exact (((hopen.append hkey).append hbetween).append hvalue).append hclose

theorem readLiteral_append {t : Text} (ht : Plain t) {rest : Text}
    (hrest : rest.head? ≠ some apostrophe) :
    readLiteral (t ++ apostrophe :: rest) = some (t, rest) := by
  induction t with
  | nil =>
    cases rest with
    | nil => rfl
    | cons c rest =>
      have hc : c ≠ apostrophe := fun h => hrest (congrArg some h)
      rw [List.nil_append, readLiteral.eq_def]
      simp only [if_true, if_neg hc]
  | cons x t ih =>
    obtain ⟨⟨hquote, hzero⟩, htail⟩ := List.forall_mem_cons.mp ht
    rw [List.cons_append, readLiteral.eq_def]
    simp only [if_neg hquote, if_neg hzero, ih htail, Option.map_some]

/-- A literal is read back if no further quote follows it. -/
theorem readString_literal {t : Text} (ht : Plain t) {rest : Text}
    (hrest : rest.head? ≠ some apostrophe) : readString (literal t ++ rest) = some (t, rest) := by
  rw [literal, List.append_assoc, List.cons_append, List.singleton_append, readString, if_pos rfl]
  exact readLiteral_append ht hrest

/-- **The statement is read as it is meant** if neither the id nor the role has a quote. -/
theorem readReplay_of_plain {sessionId : String} {agentRole : Option String}
    (hsession : Plain sessionId.toList) (hrole : ∀ role ∈ agentRole, Plain role.toList) :
    readReplay (replayStatement sessionId agentRole) =
      some (replayPatterns sessionId agentRole) := by
  have hkey : Plain "session_id".toList := by decide
  have hkey' : Plain "agent_role".toList := by decide
  have hsession := fieldPattern_plain hkey hsession
  have hdrop : ∀ pre rest : Text, (pre ++ rest).dropPrefix? pre = some rest :=
    fun _ rest => List.dropPrefix?_append_of_beq rest (beq_self_eq_true _)
  have horder : orderByTs.head? ≠ some apostrophe := by decide
  cases agentRole with
  | none =>
    rw [readReplay, replayStatement, List.append_assoc, hdrop]
    simp only [Option.bind_eq_bind, Option.bind_some, readString_literal hsession horder, if_true]
    rfl
  | some role =>
    have hrole := fieldPattern_plain hkey' (hrole role rfl)
    have hand : ∀ rest, (andMeta ++ rest).head? ≠ some apostrophe := fun rest => by
      rw [List.head?_append_of_ne_nil _ (by decide)]
      decide
    have hne : ∀ rest, andMeta ++ rest ≠ orderByTs := fun rest h => by
      have hfirst := congrArg (List.take 2) h
      rw [List.take_append_of_le_length (by decide)] at hfirst
      exact absurd hfirst (by decide)
    rw [readReplay, replayStatement, List.append_assoc, hdrop]
    simp only [Option.bind_eq_bind, Option.bind_some, List.append_assoc,
      readString_literal hsession (hand _), if_neg (hne _), hdrop,
      readString_literal hrole horder, if_true]
    rfl

theorem readReplay_ne_nil {stmt : Text} {patterns : List Text}
    (h : readReplay stmt = some patterns) : patterns ≠ [] := by
  rintro rfl
  obtain ⟨rest, -, h⟩ := Option.bind_eq_some_iff.mp h
  obtain ⟨⟨p, rest⟩, -, h⟩ := Option.bind_eq_some_iff.mp h
  dsimp only at h
  split at h
  · cases h
  · obtain ⟨rest, -, h⟩ := Option.bind_eq_some_iff.mp h
    obtain ⟨⟨p', rest⟩, -, h⟩ := Option.bind_eq_some_iff.mp h
    dsimp only at h
    split at h <;> cases h

section Selected

variable [FloatText]

/-- The rows whose `meta` matches all patterns. -/
def selects (patterns : List Text) (m : Option Json) : Bool :=
  patterns.all fun p => decide (Text.len p ≤ Space.maxLikePattern) && metaLike p m

theorem whereMeta_eq_true {patterns : List Text} {m : Option Json} :
    whereMeta patterns m = .ok true ↔ selects patterns m = true := by
  induction patterns with
  | nil => simp [whereMeta, selects]
  | cons p rest ih =>
    rw [whereMeta, selects, List.all_cons, ← selects]
    by_cases hlong : Space.maxLikePattern < Text.len p
    · simp [hlong, Nat.not_le.mpr hlong]
    · by_cases hlike : metaLike p m = true
      · simp [hlong, hlike, ih, Nat.le_of_not_lt hlong]
      · simp [hlong, hlike]

/-- A row that SQLite does not refuse is kept or not. -/
theorem whereMeta_of_short {patterns : List Text}
    (hshort : ∀ p ∈ patterns, Text.len p ≤ Space.maxLikePattern) (m : Option Json) :
    whereMeta patterns m = .ok (selects patterns m) := by
  induction patterns with
  | nil => rfl
  | cons p rest ih =>
    obtain ⟨hp, hrest⟩ := List.forall_mem_cons.mp hshort
    have hcons : selects (p :: rest) m = (metaLike p m && selects rest m) := by
      simp [selects, hp]
    rw [whereMeta, if_neg (Nat.not_lt.mpr hp), ih hrest, hcons]
    cases metaLike p m <;> rfl

/-- A null matches no pattern. -/
theorem exists_meta_of_selects {patterns : List Text} {m : Option Json} (hne : patterns ≠ [])
    (h : selects patterns m = true) : ∃ j, m = some j := by
  cases m with
  | some j => exact ⟨j, rfl⟩
  | none =>
    obtain ⟨p, rest, rfl⟩ := List.exists_cons_of_ne_nil hne
    simp [selects, metaLike] at h

/-- The rows there are, if a statement that fails counts as one without rows. -/
theorem whereRows_getD (patterns : List Text) (docs : List Doc) :
    (whereRows patterns docs).toOption.getD [] = docs.filter fun d => selects patterns d.meta_ := by
  by_cases hshort : ∀ p ∈ patterns, Text.len p ≤ Space.maxLikePattern
  · have hrows : whereRows patterns docs = .ok (docs.filter fun d => selects patterns d.meta_) := by
      induction docs with
      | nil => rfl
      | cons d rest ih =>
        rw [whereRows, whereMeta_of_short hshort, ih, List.filter_cons]
        rfl
    rw [hrows]
    rfl
  · -- a pattern that is too long selects nothing, whether or not SQLite gets to it
    have hnone : ∀ m, selects patterns m = false := by
      intro m
      push Not at hshort
      obtain ⟨p, hp, hlong⟩ := hshort
      exact List.all_eq_false.mpr ⟨p, hp, by simp [Nat.not_le.mpr hlong]⟩
    have hrows : ∀ rows, whereRows patterns docs = .ok rows → rows = [] := by
      induction docs with
      | nil =>
        rintro rows ⟨⟩
        rfl
      | cons d rest ih =>
        intro rows h
        obtain ⟨keep, hkeep, h⟩ := bind_eq_ok.mp h
        obtain ⟨more, hmore, h⟩ := bind_eq_ok.mp h
        cases h
        cases keep with
        | false => exact ih more hmore
        | true =>
          have hselected := whereMeta_eq_true.mp hkeep
          rw [hnone] at hselected
          cases hselected
    simp only [hnone, List.filter_false]
    cases h : whereRows patterns docs with
    | error e => rfl
    | ok rows =>
      rw [hrows rows h]
      rfl

end Selected

/-! ## Isolation -/

/-- The `meta` names exactly the session, and the role if one is asked for. -/
def Exact (sessionId : String) (agentRole : Option String) (m : Json) : Prop :=
  m.get "session_id" = some (.str sessionId) ∧
    ∀ role ∈ agentRole, m.get "agent_role" = some (.str role)

section Isolation

variable [Blake3]

/-- Every `meta` of a store is of a kind. -/
def Within (D : Json → Prop) (s : Store) : Prop := ∀ d ∈ s.docs.rows, ∀ m ∈ d.meta_, D m

/-- Two stores have the same documents of a kind. -/
def Agree (P : Json → Prop) (s t : Store) : Prop :=
  ∀ d : Doc, ∀ m ∈ d.meta_, P m → (d ∈ s.docs.rows ↔ d ∈ t.docs.rows)

/-- A store with one document that has a text. -/
theorem exists_single (m : Json) :
    ∃ (s : Store) (d : Doc), s.docs.rows = [d] ∧ d.meta_ = some m ∧ d.text.toList ≠ [] := by
  have hfree : Store.empty.Free none := ⟨show (0 : ℤ) < maxRowid by decide, fun h => h.1 rfl⟩
  let req : PutRequest := ⟨none, none, "x", some m, none⟩
  obtain ⟨s, hs⟩ : ∃ s, Store.empty.findOrInsert 0 req = .ok (s, 1) :=
    Store.findOrInsert_of_free rfl hfree
  exact ⟨s, Store.empty.newDoc 0 req, (Store.findOrInsert_new rfl hs).rows_eq, rfl,
    show "x".toList ≠ [] by decide⟩

variable [H : ContextHost] [Unicode] [FloatText] [OtherSql]

/-- A replay depends on the exact documents only, among stores with documents of a kind. -/
def Isolated (D : Json → Prop) (sessionId : String) (args : Json) : Prop :=
  ∀ s t : Store, Within D s → Within D t → Agree (Exact sessionId (roleArg args)) s t →
    sessionReplay s args = sessionReplay t args

variable {D : Json → Prop} {args : Json} {sessionId : String} {patterns : List Text}

theorem sessionReplay_eq (hid : (args.get "session_id").bind Json.asStr = some sessionId)
    (hread : readReplay (replayStatement sessionId (roleArg args)) = some patterns) (s : Store) :
    sessionReplay s args =
      .ok (replayOf sessionId (Agent.numberArg args "budget_tokens" 8000)
        ((((s.docs.rows.filter fun d => selects patterns d.meta_).mergeSort byTs).take 200).map
          sessionRow)) := by
  rw [sessionReplay, hid]
  simp only [Agent.required, bind, Except.bind, sqlRows, hread, selectSession,
    ← whereRows_getD]
  cases whereRows patterns s.docs.rows with
  | error e => simp [Except.map, Except.toOption]
  | ok rows => rfl

/-- One `meta` that is not exact and matches the patterns is enough to break the isolation. -/
theorem not_isolated_of_selects (hid : (args.get "session_id").bind Json.asStr = some sessionId)
    (hread : readReplay (replayStatement sessionId (roleArg args)) = some patterns) {m : Json}
    (hm : D m) (hselected : selects patterns (some m) = true)
    (hexact : ¬Exact sessionId (roleArg args) m) : ¬Isolated D sessionId args := by
  intro hisolated
  -- a store with the one document, and one without
  obtain ⟨s, d, hs, hd, htext⟩ := exists_single m
  have hsingle : ∀ d' ∈ s.docs.rows, ∀ m' ∈ d'.meta_, m' = m := by
    intro d' hd' m' hm'
    rw [hs] at hd'
    obtain rfl := List.mem_singleton.mp hd'
    exact Option.some.inj (hm'.symm.trans hd)
  have hwithin : Within D s := fun d' hd' m' hm' => (hsingle d' hd' m' hm').symm ▸ hm
  have hagree : Agree (Exact sessionId (roleArg args)) Store.empty s := by
    intro d' m' hm' hexact'
    refine iff_of_false List.not_mem_nil fun hd' => hexact ?_
    rwa [← hsingle d' hd' m' hm']
  have heq := hisolated Store.empty s (fun d hd => absurd hd List.not_mem_nil) hwithin hagree
  have hrows : (s.docs.rows.filter fun d => selects patterns d.meta_) = [d] := by
    rw [hs, List.filter_singleton, hd, hselected]
    rfl
  have hnone : (Store.empty.docs.rows.filter fun d => selects patterns d.meta_) = [] := rfl
  rw [sessionReplay_eq hid hread, sessionReplay_eq hid hread, hrows, hnone,
    List.mergeSort_singleton, List.mergeSort_nil] at heq
  have hnothing : replayOf sessionId (Agent.numberArg args "budget_tokens" 8000) [] =
      .empty sessionId (Agent.numberArg args "budget_tokens" 8000) := replayOf_eq_empty.mpr nofun
  have hempty := replayOf_eq_empty.mp ((Except.ok.inj heq).symm.trans hnothing)
  exact htext (hempty (sessionRow d) List.mem_cons_self)

/-- **When a replay is isolated.** It depends on the exact documents only if and only if no `meta`
that is not exact matches the patterns of the statement. -/
theorem isolated_iff (hid : (args.get "session_id").bind Json.asStr = some sessionId)
    (hread : readReplay (replayStatement sessionId (roleArg args)) = some patterns) :
    Isolated D sessionId args ↔
      ∀ m, D m → selects patterns (some m) = true → Exact sessionId (roleArg args) m := by
  constructor
  · intro hisolated m hm hselected
    by_contra hexact
    exact not_isolated_of_selects hid hread hm hselected hexact hisolated
  · intro h s t hs ht hagree
    have hexact : ∀ u : Store, Within D u → ∀ d ∈ u.docs.rows, selects patterns d.meta_ = true →
        (d ∈ s.docs.rows ↔ d ∈ t.docs.rows) := by
      intro u hu d hd hselected
      obtain ⟨m, hm⟩ := exists_meta_of_selects (readReplay_ne_nil hread) hselected
      rw [hm] at hselected
      exact hagree d m hm (h m (hu d hd m hm) hselected)
    have hrows := Table.filter_rows_congr (fun d hd hselected => (hexact s hs d hd hselected).mp hd)
      (fun d hd hselected => (hexact t ht d hd hselected).mpr hd)
    rw [sessionReplay_eq hid hread, sessionReplay_eq hid hread, hrows]

end Isolation

/-! ## What is ingested -/

/-- What `session_ingest` stores as a `meta`. -/
def Ingested (m : Json) : Prop := ∃ args msg, sessionIngest args = .ok msg ∧ msg.meta_ = some m

/-- A part of a session is exact for that session and its role, and for no other. -/
theorem exact_sessionMeta {sessionId sessionId' role repo : String} {agentRole : Option String}
    {turnStart turnEnd : ℤ} :
    Exact sessionId' agentRole (sessionMeta sessionId role repo turnStart turnEnd) ↔
      sessionId = sessionId' ∧ ∀ role' ∈ agentRole, role = role' := by
  have hid : (sessionMeta sessionId role repo turnStart turnEnd).get "session_id" =
      some (.str sessionId) := by
    rw [sessionMeta]
    split <;> rfl
  have hrole : (sessionMeta sessionId role repo turnStart turnEnd).get "agent_role" =
      some (.str role) := rfl
  simp only [Exact, hid, hrole, Option.some.injEq, Json.str.injEq]

/-- The arguments of a replay of a session, of every role. -/
def askFor (sessionId : String) : Json := .obj [("session_id", .str sessionId)]

/-- The arguments to store some turns of a session. -/
def turnsOf (sessionId : String) : Json :=
  .obj [("events", .arr []), ("session_id", .str sessionId), ("summary", .str "done")]

theorem readReplay_askFor {sessionId : String} (h : Plain sessionId.toList) :
    readReplay (replayStatement sessionId (roleArg (askFor sessionId))) =
      some (replayPatterns sessionId none) :=
  readReplay_of_plain h nofun

theorem ingested_turnsOf (sessionId : String) :
    Ingested (sessionMeta sessionId "unknown" "" 0 0) := ⟨turnsOf sessionId, _, rfl, rfl⟩

/-- A replay of session `s-1` is isolated from what is stored for session `s-2`. -/
theorem twoSessions_isolated :
    let _ := ContextHost.list
    let _ := Unicode.asciiOnly
    let _ := FloatText.zero
    let _ := Blake3.identity
    let _ := OtherSql.refuse
    Isolated (· ∈ ["s-1", "s-2"].map fun id => sessionMeta id "unknown" "" 0 0) "s-1"
      (askFor "s-1") := by
  intro _ _ _ _ _
  refine (isolated_iff rfl (readReplay_askFor (by decide))).mpr fun m hm hselected => ?_
  have hother : selects (replayPatterns "s-1" none) (some (sessionMeta "s-2" "unknown" "" 0 0)) =
      false := by
    decide +kernel
  rcases List.mem_pair.mp hm with rfl | rfl
  · exact exact_sessionMeta.mpr ⟨rfl, nofun⟩
  · cases hother.symm.trans hselected

/-- A replay of session `s_1` is not isolated from what is stored for session `sA1`. -/
theorem underscore_leaks :
    let _ := ContextHost.list
    let _ := Unicode.asciiOnly
    let _ := FloatText.zero
    let _ := Blake3.identity
    let _ := OtherSql.refuse
    ¬Isolated Ingested "s_1" (askFor "s_1") := by
  intro _ _ _ _ _
  refine not_isolated_of_selects rfl (readReplay_askFor (by decide)) (ingested_turnsOf "sA1")
    (by decide +kernel) fun hexact => ?_
  exact absurd (exact_sessionMeta.mp hexact).1 (by decide)

end SessionReplay

end SynapseMemory
