import SynapseMemory.Agent
import SynapseMemory.CsvExport
import SynapseMemory.PiiMasking
import SynapseMemory.ScopedSearch

/-!
# The compliance export

The model of `export_memories` of `synapse-compliance`: the documents in the order of their times,
each as a record. The content is masked. The identity of the agent is exported as it is stored,
whatever `include_agent` says, which nothing reads; so are the id and, if it is asked for, the
source.

An export is safe if without `include_agent` it does not depend on the agents, and no text of it
matches a rule. `export_safe_iff` says when both hold: if the exported agents are the same, and
neither the texts that are exported as they are nor what the masking leaves has a match.
-/

namespace SynapseMemory.Compliance

open Agent (Db)
open Proto (Doc)
open ScopedSearch (jsonExtract)

/-- The options of an export. -/
structure ExportOptions where
  includePiiCounts : Bool
  includeAgent : Bool
  includeSource : Bool
  maxRecords : ℕ

/-- Why an export fails. -/
inductive ComplianceError where
  | sqlite (message : String)
  deriving DecidableEq

/-- `COALESCE(json_extract(meta, '$.agent'), '')`, where what is not a text is empty. -/
def exportAgent [FloatText] (d : Doc) : Text := (d.meta_.bind (jsonExtract · "agent")).getD []

/-- The rows of the statement, those of one time in the order of their ids. -/
def exportRows (o : ExportOptions) (db : Db) : List Doc :=
  let rows := db.docs.mergeSort fun a b => decide (a.ts ≤ b.ts)
  if 0 < o.maxRecords then rows.take o.maxRecords else rows

/-- The fields of a record that are texts. -/
def ExportRecord.strings (r : ExportRecord) : List Text :=
  r.docId :: r.agent :: r.contentMasked :: (r.piiCounts.map Prod.fst ++ r.sourceUri.toList)

/-- What of a record is exported as it is stored. -/
def Bare [FloatText] (o : ExportOptions) (d : Doc) : List Text :=
  (toString d.id).toList :: exportAgent d ::
    if o.includeSource then (d.uri.map String.toList).toList else []

/-! ## Databases that agree except for the agents -/

/-- A meta without its agent. -/
def withoutAgent : Json → Json
  | .obj fields => .obj (fields.filter fun f => f.1 ≠ "agent")
  | v => v

/-- A document with the agent taken out of its meta. -/
def agentless (d : Doc) : Doc := { d with meta_ := d.meta_.map withoutAgent }

/-- The databases differ in the agents of their metas at most. -/
def AgreeExceptAgents (db db' : Db) : Prop := db.docs.map agentless = db'.docs.map agentless

/-- The rows that are exported have the same agents. -/
def SameAgents [FloatText] (o : ExportOptions) (db db' : Db) : Prop :=
  o.includeAgent = false → AgreeExceptAgents db db' → o.maxRecords < 2 ^ 63 →
    (exportRows o db).map exportAgent = (exportRows o db').map exportAgent

theorem mergeSort_agentless (docs : List Doc) :
    (docs.mergeSort fun a b => decide (a.ts ≤ b.ts)).map agentless =
      (docs.map agentless).mergeSort fun a b => decide (a.ts ≤ b.ts) :=
  List.map_mergeSort fun _ _ _ _ => rfl

/-- The same rows are exported, but for the agents. -/
theorem exportRows_agentless (o : ExportOptions) {db db' : Db} (h : AgreeExceptAgents db db') :
    (exportRows o db).map agentless = (exportRows o db').map agentless := by
  have hsort : ∀ db : Db, (exportRows o db).map agentless =
      let rows := (db.docs.map agentless).mergeSort fun a b => decide (a.ts ≤ b.ts)
      if 0 < o.maxRecords then rows.take o.maxRecords else rows := by
    intro db
    rw [← mergeSort_agentless]
    unfold exportRows
    dsimp only
    split
    · exact List.map_take
    · rfl
  rw [hsort, hsort, h]

section

variable [PerlClasses]

/-- No rule matches. -/
def Clean (t : Text) : Prop := ∀ r ∈ rules, ¬r.pattern.Occurs false t

/-- The names of the types say nothing. -/
theorem clean_asStr (ty : PiiType) : Clean ty.asStr := fun _ hr =>
  (needs_of_mem hr).not_occurs fun c hc => key_label ty c (List.mem_append_right _ hc)

variable [FloatText]

/-- `export_record`: the text is masked, and the counts are of what was masked. -/
def exportRecord (o : ExportOptions) (d : Doc) : ExportRecord :=
  let masked := mask d.text.toList
  { docId := (toString d.id).toList
    agent := exportAgent d
    ts := d.ts
    contentMasked := masked.1
    piiCounts := if o.includePiiCounts then masked.2.map fun e => (e.1.asStr, e.2) else []
    sourceUri := if o.includeSource then d.uri.map String.toList else none }

/-- A `LIMIT` has to be an integer of 64 bits. -/
def exportMemories (o : ExportOptions) (db : Db) : Except ComplianceError (List ExportRecord) :=
  if 2 ^ 63 ≤ o.maxRecords then .error (.sqlite "datatype mismatch")
  else .ok ((exportRows o db).map (exportRecord o))

/-! ## What an export should keep to itself -/

/-- Without `include_agent`, the agents make no difference. -/
def AgentsHidden (o : ExportOptions) (db db' : Db) : Prop :=
  o.includeAgent = false → AgreeExceptAgents db db' → exportMemories o db = exportMemories o db'

/-- No text of a record has a match. -/
def AllMasked (o : ExportOptions) (db : Db) : Prop :=
  ∀ records, exportMemories o db = .ok records → ∀ r ∈ records, ∀ t ∈ r.strings, Clean t

/-- A record tells the agent, and nothing else of what the databases do not agree on. -/
theorem exportRecord_eq_iff (o : ExportOptions) {d d' : Doc} (h : agentless d = agentless d') :
    exportRecord o d = exportRecord o d' ↔ exportAgent d = exportAgent d' := by
  obtain ⟨hid, huri, -, htext, -, hts⟩ := Doc.mk.inj h
  simp [exportRecord, hid, huri, htext, hts]

/-- Two exports are equal if the agents are, once the rest is. -/
theorem map_exportRecord_eq_iff (o : ExportOptions) {ds ds' : List Doc}
    (h : ds.map agentless = ds'.map agentless) :
    ds.map (exportRecord o) = ds'.map (exportRecord o) ↔
      ds.map exportAgent = ds'.map exportAgent := by
  induction ds generalizing ds' with
  | nil =>
    obtain rfl := List.map_eq_nil_iff.mp h.symm
    simp only [List.map_nil]
  | cons d ds ih =>
    cases ds' with
    | nil => cases h
    | cons d' ds' =>
      obtain ⟨hd, hds⟩ := List.cons.inj h
      simp only [List.map_cons, List.cons.injEq, exportRecord_eq_iff o hd, ih hds]

/-- **The agents are exported as they are.** -/
theorem exportMemories_eq_iff (o : ExportOptions) {db db' : Db} (h : AgreeExceptAgents db db') :
    exportMemories o db = exportMemories o db' ↔
      (o.maxRecords < 2 ^ 63 →
        (exportRows o db).map exportAgent = (exportRows o db').map exportAgent) := by
  rw [exportMemories, exportMemories, ← map_exportRecord_eq_iff o (exportRows_agentless o h)]
  split
  next hlimit => exact iff_of_true rfl fun hlt => absurd hlt (Nat.not_lt.mpr hlimit)
  next hlimit => rw [Except.ok.injEq, imp_iff_right (Nat.lt_of_not_le hlimit)]

/-- The texts of an exported record. -/
theorem strings_exportRecord (o : ExportOptions) (d : Doc) : ∃ tys : List PiiType,
    (exportRecord o d).strings = (toString d.id).toList :: exportAgent d ::
      maskStr d.text.toList :: (tys.map PiiType.asStr ++
        if o.includeSource then (d.uri.map String.toList).toList else []) := by
  refine ⟨if o.includePiiCounts then (mask d.text.toList).2.map Prod.fst else [], ?_⟩
  cases hcounts : o.includePiiCounts <;> cases hsource : o.includeSource <;>
    simp [exportRecord, ExportRecord.strings, maskStr, hcounts, hsource]

/-- They are clean if those that are not masked are, and the masked text is. -/
theorem strings_clean_iff (o : ExportOptions) (d : Doc) :
    (∀ t ∈ (exportRecord o d).strings, Clean t) ↔
      (∀ t ∈ Bare o d, Clean t) ∧ Clean (maskStr d.text.toList) := by
  obtain ⟨tys, hstrings⟩ := strings_exportRecord o d
  have htys : ∀ t ∈ tys.map PiiType.asStr, Clean t :=
    List.forall_mem_map.mpr fun ty _ => clean_asStr ty
  rw [hstrings, Bare]
  simp only [List.forall_mem_cons, List.forall_mem_append]
  refine ⟨?_, ?_⟩
  · rintro ⟨hid, hagent, hcontent, -, hsource⟩
    exact ⟨⟨hid, hagent, hsource⟩, hcontent⟩
  · rintro ⟨⟨hid, hagent, hsource⟩, hcontent⟩
    exact ⟨hid, hagent, hcontent, htys, hsource⟩

theorem allMasked_iff (o : ExportOptions) (db : Db) :
    AllMasked o db ↔ (o.maxRecords < 2 ^ 63 → ∀ d ∈ exportRows o db,
      (∀ t ∈ Bare o d, Clean t) ∧ Clean (maskStr d.text.toList)) := by
  unfold AllMasked exportMemories
  split
  next hlimit =>
    exact iff_of_true (fun _ h => by cases h) fun hlt => absurd hlt (Nat.not_lt.mpr hlimit)
  next hlimit =>
    rw [imp_iff_right (Nat.lt_of_not_le hlimit)]
    simp only [Except.ok.injEq, forall_eq', List.forall_mem_map, strings_clean_iff]

/-! ## When an export keeps it -/

/-- No number of matches becomes zero in 32 bits in the masking of an exported text. -/
def Countable (o : ExportOptions) (db : Db) : Prop :=
  o.maxRecords < 2 ^ 63 → ∀ d ∈ exportRows o db, NoWrap rules d.text.toList

/-- Nothing personal is in what is exported as it is stored, and in the contents the phone numbers
stand apart. -/
def Harmless (o : ExportOptions) (db : Db) : Prop :=
  o.maxRecords < 2 ^ 63 → ∀ d ∈ exportRows o db,
    (∀ t ∈ Bare o d, Clean t) ∧ PhonesApart d.text.toList

theorem agentsHidden_iff (o : ExportOptions) (db db' : Db) :
    AgentsHidden o db db' ↔ SameAgents o db db' :=
  forall_congr' fun _ => forall_congr' fun h => exportMemories_eq_iff o h

theorem allMasked_iff_harmless {o : ExportOptions} {db : Db} (h : Countable o db) :
    AllMasked o db ↔ Harmless o db := by
  rw [allMasked_iff]
  refine forall_congr' fun hlimit => forall₂_congr fun d hd => and_congr_right' ?_
  rw [maskStr_eq (h hlimit d hd)]
  exact not_occurs_rules_iff _

/-- **When an export keeps the agents to itself and has nothing personal in it.** -/
theorem export_safe_iff (o : ExportOptions) (db db' : Db) :
    (Countable o db ∧ SameAgents o db db' ∧ Harmless o db →
      AgentsHidden o db db' ∧ AllMasked o db) ∧
    (Countable o db ∧ AgentsHidden o db db' ∧ AllMasked o db →
      SameAgents o db db' ∧ Harmless o db) := by
  rw [agentsHidden_iff]
  refine ⟨?_, ?_⟩
  · rintro ⟨hcount, hagents, hharmless⟩
    exact ⟨hagents, (allMasked_iff_harmless hcount).mpr hharmless⟩
  · rintro ⟨hcount, hagents, hmasked⟩
    exact ⟨hagents, (allMasked_iff_harmless hcount).mp hmasked⟩

end

/-- The address of an agent is exported, though neither its identity nor anything personal should
be. -/
theorem agent_exported :
    let d (agent : String) : Doc := ⟨1, none, none, "x", some (.obj [("agent", .str agent)]), 0⟩
    let db (agent : String) : Db := ⟨[d agent], List.pairwise_singleton _ _⟩
    let o : ExportOptions := ⟨true, false, false, 0⟩
    ¬@AgentsHidden .asciiOnly .zero o (db "a@b.com") (db "c") ∧
      ¬@AllMasked .asciiOnly .zero o (db "a@b.com") := by
  let _ : PerlClasses := .asciiOnly
  let _ : FloatText := .zero
  intro d db o
  have hexport : ∀ agent, exportMemories o (db agent) = .ok [exportRecord o (d agent)] := by
    intro agent
    simp [exportMemories, exportRows, db, o]
  refine ⟨fun h => ?_, fun h => ?_⟩
  · have heq := h rfl rfl
    rw [hexport, hexport, Except.ok.injEq, List.cons.injEq] at heq
    have hagent : exportAgent (d "a@b.com") = exportAgent (d "c") :=
      congrArg ExportRecord.agent heq.1
    exact absurd hagent (by decide)
  · have hclean := h _ (hexport "a@b.com") _ List.mem_cons_self (exportAgent (d "a@b.com"))
      (List.mem_cons_of_mem _ List.mem_cons_self) ⟨.email, email⟩ List.mem_cons_self
    have hmatch : email.matchLength false (exportAgent (d "a@b.com")) ≠ 0 := by decide +kernel
    exact hclean ⟨[], _, rfl, Regex.here_of_matchLength hmatch⟩

end SynapseMemory.Compliance
