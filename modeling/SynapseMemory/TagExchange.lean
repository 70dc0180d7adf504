import SynapseMemory.Tags

/-!
# Tag export and import

The model of `export` and `import` of `tags.rs`. Tags are exchanged by their names: an import gives
out ids of its own, and reads the clock again for each row.

A rule only names its tag, which can be deleted as an orphan. The import adds the rule, and with it
the tag. So an import into empty tables restores what was exported with the missing tags of the
rules, and a second one changes no row (`import_restores`).
-/

namespace SynapseMemory.Tags

open Events (UltraError)

/-- `DocTag` -/
structure DocTag where
  id : ℤ
  docId : ℤ
  tagId : ℤ
  tagName : String
  source : String
  ts : ℤ
  deriving DecidableEq

/-- `TagRule` -/
structure TagRule where
  id : ℤ
  keyword : String
  tagName : String
  enabled : Bool
  createdTs : ℤ
  deriving DecidableEq

/-- `TagExport` -/
structure TagExport where
  tags : List TagRow
  docTags : List DocTag
  rules : List TagRule

namespace TagExport

/-- The number of rows. -/
def size (data : TagExport) : ℕ := data.tags.length + data.rules.length + data.docTags.length

end TagExport

namespace Db

/-! ## Export -/

/-- The row of a rule as it is read. -/
def ruleOf (r : RuleRow) : TagRule := ⟨r.id, r.keyword, r.tagName, r.enabled ≠ 0, r.createdTs⟩

/-- `doc_tags JOIN tags` -/
def joinedTags (db : Db) : List DocTag :=
  db.docTags.rows.flatMap fun r =>
    (db.tags.rows.filter fun t => t.id = r.tagId).map fun t =>
      ⟨r.id, r.docId, r.tagId, t.name, r.source, r.ts⟩

/-- `export_tags` -/
def exportTags (db : Db) : TagExport where
  tags := db.tags.rows.mergeSort fun a b => a.name ≤ b.name
  docTags := db.joinedTags.mergeSort fun a b => a.ts ≤ b.ts
  rules := (db.rules.rows.map ruleOf).mergeSort fun a b => a.keyword ≤ b.keyword

/-- What an export is in whatever order the rows of one key are read. -/
structure Exports (db : Db) (data : TagExport) : Prop where
  tags : data.tags.Perm db.tags.rows
  docTags : data.docTags.Perm db.joinedTags
  rules : data.rules.Perm (db.rules.rows.map ruleOf)
  tags_sorted : data.tags.Pairwise fun a b => a.name ≤ b.name
  docTags_sorted : data.docTags.Pairwise fun a b => a.ts ≤ b.ts
  rules_sorted : data.rules.Pairwise fun a b => a.keyword ≤ b.keyword

/-- An export has all rows, whatever their order. -/
theorem exportTags_exports (db : Db) : db.Exports db.exportTags where
  tags := List.mergeSort_perm _ _
  docTags := List.mergeSort_perm _ _
  rules := List.mergeSort_perm _ _
  tags_sorted := by
    refine (List.pairwise_mergeSort ?_ ?_ _).imp of_decide_eq_true
    · simpa using fun a b c : TagRow => le_trans
    · simpa using fun a b : TagRow => le_total a.name b.name
  docTags_sorted := by
    refine (List.pairwise_mergeSort ?_ ?_ _).imp of_decide_eq_true
    · simpa using fun a b c : DocTag => le_trans
    · simpa using fun a b : DocTag => le_total a.ts b.ts
  rules_sorted := by
    refine (List.pairwise_mergeSort ?_ ?_ _).imp of_decide_eq_true
    · simpa using fun a b c : TagRule => le_trans
    · simpa using fun a b : TagRule => le_total a.keyword b.keyword

/-! ## Import -/

/-- A loop that counts the rows it is through, and stops at the first error. -/
def forEach {α : Type} (f : ℕ → Db → α → Db × Except UltraError Unit) :
    ℕ → Db → List α → Db × Except UltraError ℕ
  | count, db, [] => (db, .ok count)
  | count, db, a :: as =>
    match f count db a with
    | (db, .error e) => (db, .error e)
    | (db, .ok ()) => forEach f (count + 1) db as

/-- `clock` has the two times that are read for each row. -/
def importTag (clock : ℕ → ℤ × ℤ) (count : ℕ) (db : Db) (tag : TagRow) :
    Db × Except UltraError Unit :=
  match db.createTag (clock count).1 tag.name tag.color tag.description with
  | (db, .error e) => (db, .error e)
  | (db, .ok _) => (db, .ok ())

/-- A rule of the import. One that is off is added, and then switched off. -/
def importRule (clock : ℕ → ℤ × ℤ) (count : ℕ) (db : Db) (rule : TagRule) :
    Db × Except UltraError Unit :=
  match db.addRule (clock count).1 (clock count).2 rule.keyword rule.tagName with
  | (db, .error e) => (db, .error e)
  | (db, .ok _) =>
    (if rule.enabled then db else db.disableRule rule.keyword rule.tagName, .ok ())

/-- A document tag of the import. -/
def importDocTag (clock : ℕ → ℤ × ℤ) (count : ℕ) (db : Db) (dt : DocTag) :
    Db × Except UltraError Unit :=
  db.tagDoc (clock count).1 (clock count).2 dt.docId dt.tagName dt.source

/-- `import_tags`, with the number of rows that were imported. -/
def importTags (db : Db) (clock : ℕ → ℤ × ℤ) (data : TagExport) : Db × Except UltraError ℕ :=
  match forEach (importTag clock) 0 db data.tags with
  | (db, .error e) => (db, .error e)
  | (db, .ok count) =>
    match forEach (importRule clock) count db data.rules with
    | (db, .error e) => (db, .error e)
    | (db, .ok count) => forEach (importDocTag clock) count db data.docTags

/-! ## Runs -/

section Loop

variable {α : Type} {f : ℕ → Db → α → Db × Except UltraError Unit}

/-- What holds of the rows that a loop is through. -/
theorem forEach_ok {as : List α} {P : List α → Db → Prop}
    (step : ∀ count db db' done a, done ++ [a] <+: as → P done db →
      f count db a = (db', .ok ()) → P (done ++ [a]) db')
    {count n : ℕ} {db db' : Db} (hstart : P [] db) (h : forEach f count db as = (db', .ok n)) :
    P as db' := by
  suffices ∀ rest done count db, done ++ rest = as → P done db →
      forEach f count db rest = (db', .ok n) → P as db' from this as [] count db rfl hstart h
  intro rest
  induction rest with
  | nil =>
    intro done count db hsplit hP h
    cases h
    rwa [← hsplit, List.append_nil]
  | cons a rest ih =>
    intro done count db hsplit hP h
    rw [forEach] at h
    split at h
    next => cases h
    next mid hstep =>
      have hnext : done ++ [a] ++ rest = as := by
        rw [List.append_assoc, List.singleton_append, hsplit]
      exact ih (done ++ [a]) _ mid hnext (step count db mid done a ⟨rest, hnext⟩ hP hstep) h

/-- What every step keeps, the last one of a loop that stops too. -/
theorem forEach_keeps {P : Db → Prop} {as : List α}
    (step : ∀ count db a, a ∈ as → P db → P (f count db a).1) {count : ℕ} {db : Db} (hP : P db) :
    P (forEach f count db as).1 := by
  induction as generalizing count db with
  | nil => exact hP
  | cons a as ih =>
    have hfirst := step count db a List.mem_cons_self hP
    rw [forEach]
    split
    next mid _ heq => rwa [heq] at hfirst
    next mid heq =>
      rw [heq] at hfirst
      exact ih (fun count db a ha => step count db a (List.mem_cons_of_mem _ ha)) hfirst

/-- A loop succeeds if each step does with the room that is left. -/
theorem forEach_succeeds {Room : ℕ → Db → Prop}
    (step : ∀ count db a k, Room (k + 1) db → ∃ db', f count db a = (db', .ok ()) ∧ Room k db')
    {as : List α} {k : ℕ} {db : Db} (hroom : Room (as.length + k) db) (count : ℕ) :
    ∃ db', forEach f count db as = (db', .ok (count + as.length)) ∧ Room k db' := by
  induction as generalizing count db with
  | nil => exact ⟨db, rfl, by simpa using hroom⟩
  | cons a as ih =>
    have hnext : Room (as.length + k + 1) db := by
      have hlength : (a :: as).length + k = as.length + k + 1 := by
        rw [List.length_cons]
        omega
      rwa [hlength] at hroom
    obtain ⟨mid, hstep, hleft⟩ := step count db a _ hnext
    obtain ⟨db', hloop, hlast⟩ := ih hleft (count + 1)
    refine ⟨db', ?_, hlast⟩
    rw [forEach, hstep]
    simp only [hloop, List.length_cons]
    rw [Nat.add_assoc, Nat.add_comm 1]

end Loop

/-! ## What the tables hold -/

/-- A tag has the name. -/
def HasName (db : Db) (name : String) : Prop := ∃ t ∈ db.tags.rows, t.name = name

/-- A tag has the name, the colour and the description. -/
def HasTagRow (db : Db) (name : String) (color description : Option String) : Prop :=
  ∃ t ∈ db.tags.rows, t.name = name ∧ t.color = color ∧ t.description = description

/-- There is a rule for the keyword and the tag, on or off as said. -/
def HasRule (db : Db) (keyword tagName : String) (enabled : Bool) : Prop :=
  ∃ r ∈ db.rules.rows, r.keyword = keyword ∧ r.tagName = tagName ∧ (r.enabled ≠ 0 : Bool) = enabled

/-- The document has the tag, from that source. -/
def HasDocTag (db : Db) (docId : ℤ) (name source : String) : Prop :=
  ∃ t ∈ db.tags.rows, t.name = name ∧
    ∃ r ∈ db.docTags.rows, r.tagId = t.id ∧ r.docId = docId ∧ r.source = source

theorem hasName_iff {db : Db} {name : String} :
    db.HasName name ↔ ∃ color description, db.HasTagRow name color description := by
  constructor
  · rintro ⟨t, ht, hname⟩
    exact ⟨t.color, t.description, t, ht, hname, rfl, rfl⟩
  · rintro ⟨_, _, t, ht, hname, -⟩
    exact ⟨t, ht, hname⟩

/-- What an import into empty tables makes of what was exported. -/
structure Restored (db db' : Db) : Prop where
  tags : ∀ name color description, db'.HasTagRow name color description ↔
    db.HasTagRow name color description ∨
      color = none ∧ description = none ∧ ¬db.HasName name ∧ ∃ r ∈ db.rules.rows, r.tagName = name
  rules : ∀ keyword tagName enabled,
    db'.HasRule keyword tagName enabled ↔ db.HasRule keyword tagName enabled
  docTags : ∀ docId name source, db'.HasDocTag docId name source ↔ db.HasDocTag docId name source

/-- The rows are the same in all three tables. -/
structure SameRows (db db' : Db) : Prop where
  tags : db'.tags.rows = db.tags.rows
  docTags : db'.docTags.rows = db.docTags.rows
  rules : db'.rules.rows = db.rules.rows

theorem SameRows.refl (db : Db) : SameRows db db := ⟨rfl, rfl, rfl⟩

theorem SameRows.trans {a b c : Db} (hab : SameRows a b) (hbc : SameRows b c) : SameRows a c :=
  ⟨hbc.tags.trans hab.tags, hbc.docTags.trans hab.docTags, hbc.rules.trans hab.rules⟩

theorem SameRows.hasName {db db' : Db} (h : SameRows db db') {name : String} :
    db'.HasName name ↔ db.HasName name := by
  rw [HasName, h.tags, HasName]

theorem SameRows.hasRule {db db' : Db} (h : SameRows db db') {keyword tagName : String}
    {enabled : Bool} :
    db'.HasRule keyword tagName enabled ↔ db.HasRule keyword tagName enabled := by
  rw [HasRule, h.rules, HasRule]

theorem SameRows.hasDocTag {db db' : Db} (h : SameRows db db') {docId : ℤ} {name source : String} :
    db'.HasDocTag docId name source ↔ db.HasDocTag docId name source := by
  simp only [HasDocTag, h.tags, h.docTags]

/-! ### A tag -/

/-- After a tag was created there is one with its name. -/
theorem createTag_hasTagRow {db db' : Db} {now id : ℤ} {name : String}
    {color description : Option String}
    (h : db.createTag now name color description = (db', .ok id)) {n : String}
    {c d : Option String} :
    db'.HasTagRow n c d ↔
      db.HasTagRow n c d ∨ n = name ∧ c = color ∧ d = description ∧ ¬db.HasName name := by
  obtain ⟨-, -, -, ⟨htags, hthere⟩ | ⟨hnone, htags⟩⟩ := createTag_ok h
  · have hnot : ¬(n = name ∧ c = color ∧ d = description ∧ ¬db.HasName name) :=
      fun hnew => hnew.2.2.2 hthere
    rw [HasTagRow, htags, or_iff_left hnot, HasTagRow]
  · have hfresh : ¬db.HasName name := fun ⟨t, ht, heq⟩ => hnone t ht heq
    simp only [HasTagRow, htags, List.mem_append, List.mem_singleton, or_and_right, exists_or,
      exists_eq_left]
    refine or_congr_right ⟨?_, ?_⟩
    · rintro ⟨rfl, rfl, rfl⟩
      exact ⟨rfl, rfl, rfl, hfresh⟩
    · rintro ⟨rfl, rfl, rfl, -⟩
      exact ⟨rfl, rfl, rfl⟩

/-- A tag is as it was asked for, if it was not there in another way. -/
theorem createTag_hasTagRow_of_only {db db' : Db} {now id : ℤ} {name : String}
    {color description : Option String}
    (h : db.createTag now name color description = (db', .ok id))
    (honly : ∀ t ∈ db.tags.rows, t.name = name → t.color = color ∧ t.description = description)
    {n : String} {c d : Option String} :
    db'.HasTagRow n c d ↔ db.HasTagRow n c d ∨ n = name ∧ c = color ∧ d = description := by
  rw [createTag_hasTagRow h]
  by_cases hthere : db.HasName name
  · obtain ⟨t, ht, rfl⟩ := hthere
    obtain ⟨rfl, rfl⟩ := honly t ht rfl
    have habsorb : (n = t.name ∧ c = t.color ∧ d = t.description) → db.HasTagRow n c d := by
      rintro ⟨rfl, rfl, rfl⟩
      exact ⟨t, ht, rfl, rfl, rfl⟩
    rw [or_iff_left_of_imp habsorb, or_iff_left fun hnew => hnew.2.2.2 ⟨t, ht, rfl⟩]
  · simp only [hthere, not_false_eq_true, and_true]

/-- The name of a tag that is there changes no row. -/
theorem createTag_sameRows {db : Db} {name : String} (h : db.HasName name) (now : ℤ)
    (color description : Option String) :
    SameRows db (db.createTag now name color description).1 := by
  rw [createTag]
  split
  · exact .refl db
  · split
    next => exact ⟨rfl, rfl, rfl⟩
    next hnone =>
      obtain ⟨t, ht, hname⟩ := h
      exact absurd hname (db.tags.byKey_eq_none.mp hnone t ht)

theorem createTag_succeeds {db : Db} (h : db.tags.seq < maxRowid) (now : ℤ) (name : String)
    (color description : Option String) :
    ∃ db' id, db.createTag now name color description = (db', .ok id) ∧
      db'.tags.seq = db.tags.seq + 1 ∧ db'.docTags = db.docTags ∧ db'.rules = db.rules := by
  rw [createTag, if_neg (not_not.mpr h)]
  split
  next => exact ⟨_, _, rfl, rfl, rfl, rfl⟩
  next => exact ⟨_, _, rfl, rfl, rfl, rfl⟩

/-! ### A rule -/

/-- What a rule that was inserted leaves as it was. -/
theorem insertRule_ok {db db' : Db} {now id : ℤ} {keyword tagName : String}
    (h : db.insertRule now keyword tagName = (db', .ok id)) :
    db'.tags = db.tags ∧ db'.docTags = db.docTags ∧
      (db'.rules.rows = db.rules.rows ∧ (∃ e, db.HasRule keyword tagName e) ∨
        (¬∃ e, db.HasRule keyword tagName e) ∧
          db'.rules.rows = db.rules.rows ++ [⟨id, keyword, tagName, 1, now⟩]) := by
  rw [insertRule] at h
  split at h
  · cases h
  · split at h
    next r hr =>
      obtain ⟨hmem, hkey⟩ := db.rules.byKey_eq_some.mp hr
      obtain ⟨hkeyword, hname⟩ := Prod.mk.inj hkey
      cases h
      exact ⟨rfl, rfl, .inl ⟨rfl, _, r, hmem, hkeyword, hname, rfl⟩⟩
    next hnone =>
      cases h
      refine ⟨rfl, rfl, .inr ⟨?_, rfl⟩⟩
      rintro ⟨e, r, hr, rfl, rfl, -⟩
      exact db.rules.byKey_eq_none.mp hnone r hr rfl

/-- The rules after one was disabled. -/
theorem disableRule_hasRule {db : Db} {keyword tagName k n : String} {e : Bool} :
    (db.disableRule keyword tagName).HasRule k n e ↔
      if k = keyword ∧ n = tagName then e = false ∧ ∃ b, db.HasRule k n b
      else db.HasRule k n e := by
  simp only [HasRule, disableRule, Table.modify, List.mem_map, exists_exists_and_eq_and]
  split_ifs with hkey
  · obtain ⟨rfl, rfl⟩ := hkey
    constructor
    · rintro ⟨r, hr, hk, hn, he⟩
      split_ifs at hk hn he with hmatch
      · exact ⟨by simpa using he.symm, _, r, hr, hk, hn, rfl⟩
      · exact absurd ⟨hk, hn⟩ hmatch
    · rintro ⟨rfl, b, r, hr, hk, hn, -⟩
      refine ⟨r, hr, ?_⟩
      rw [if_pos ⟨hk, hn⟩]
      exact ⟨hk, hn, by simp⟩
  · refine exists_congr fun r => and_congr_right fun _ => ?_
    split_ifs with hmatch
    · simp only [hmatch.1, hmatch.2]
      constructor <;> rintro ⟨rfl, rfl, -⟩ <;> exact absurd ⟨rfl, rfl⟩ hkey
    · rfl

/-- The rules after one was inserted. -/
theorem insertRule_hasRule {db db' : Db} {now id : ℤ} {keyword tagName : String}
    (h : db.insertRule now keyword tagName = (db', .ok id)) {k n : String} {e : Bool} :
    db'.HasRule k n e ↔ db.HasRule k n e ∨
      k = keyword ∧ n = tagName ∧ e = true ∧ ¬∃ b, db.HasRule keyword tagName b := by
  obtain ⟨-, -, ⟨hrules, hthere⟩ | ⟨hnone, hrules⟩⟩ := insertRule_ok h
  · have hnot : ¬(k = keyword ∧ n = tagName ∧ e = true ∧ ¬∃ b, db.HasRule keyword tagName b) :=
      fun hnew => hnew.2.2.2 hthere
    rw [HasRule, hrules, or_iff_left hnot, HasRule]
  · simp only [HasRule, hrules, List.mem_append, List.mem_singleton, or_and_right, exists_or,
      exists_eq_left]
    refine or_congr_right ⟨?_, ?_⟩
    · rintro ⟨hk, hn, he⟩
      exact ⟨hk.symm, hn.symm, by simpa using he.symm, hnone⟩
    · rintro ⟨rfl, rfl, rfl, -⟩
      exact ⟨rfl, rfl, by simp⟩

theorem insertRule_sameRows {db : Db} {keyword tagName : String} {e : Bool}
    (h : db.HasRule keyword tagName e) (now : ℤ) :
    SameRows db (db.insertRule now keyword tagName).1 := by
  rw [insertRule]
  split
  · exact .refl db
  · split
    next => exact ⟨rfl, rfl, rfl⟩
    next hnone =>
      obtain ⟨r, hr, rfl, rfl, -⟩ := h
      exact absurd rfl (db.rules.byKey_eq_none.mp hnone r hr)

theorem disableRule_sameRows {db : Db} {keyword tagName : String}
    (h : db.HasRule keyword tagName false) : SameRows db (db.disableRule keyword tagName) := by
  refine ⟨rfl, rfl, ?_⟩
  obtain ⟨x, hx, rfl, rfl, hoff⟩ := h
  have hzero : x.enabled = 0 := by simpa using hoff
  refine (List.map_congr_left fun r hr => ?_).trans (List.map_id _)
  split_ifs with hmatch
  · obtain rfl := db.rules.eq_of_key hr hx (Prod.ext hmatch.1 hmatch.2)
    rw [← hzero, id_eq]
  · rfl

/-- The statements of an imported rule. -/
theorem importRule_ok {clock : ℕ → ℤ × ℤ} {count : ℕ} {db db' : Db} {rule : TagRule}
    (h : importRule clock count db rule = (db', .ok ())) :
    ∃ mid id last ruleId,
      db.createTag (clock count).2 rule.tagName none none = (mid, .ok id) ∧
      mid.insertRule (clock count).1 rule.keyword rule.tagName = (last, .ok ruleId) ∧
      db' = if rule.enabled then last else last.disableRule rule.keyword rule.tagName := by
  rw [importRule, addRule] at h
  split at h
  next => cases h
  next last ruleId hadd =>
    split at hadd
    next => cases hadd
    next mid id hcreate =>
      cases h
      exact ⟨mid, id, last, ruleId, hcreate, hadd, rfl⟩

/-- A rule comes with its tag. -/
theorem importRule_tags {clock : ℕ → ℤ × ℤ} {count : ℕ} {db db' : Db} {rule : TagRule}
    (h : importRule clock count db rule = (db', .ok ())) :
    ∃ mid id, db.createTag (clock count).2 rule.tagName none none = (mid, .ok id) ∧
      db'.tags = mid.tags ∧ db'.docTags = db.docTags := by
  obtain ⟨mid, id, last, ruleId, hcreate, hinsert, rfl⟩ := importRule_ok h
  obtain ⟨htags, hdocTags, -⟩ := insertRule_ok hinsert
  obtain ⟨-, hsame, -⟩ := createTag_ok hcreate
  refine ⟨mid, id, hcreate, ?_⟩
  split_ifs
  · exact ⟨htags, hdocTags.trans hsame⟩
  · exact ⟨htags, hdocTags.trans hsame⟩

/-- A rule has its flag after the import, if it had no other one before. -/
theorem importRule_hasRule {clock : ℕ → ℤ × ℤ} {count : ℕ} {db db' : Db} {rule : TagRule}
    (h : importRule clock count db rule = (db', .ok ()))
    (honly : ∀ b, db.HasRule rule.keyword rule.tagName b → b = rule.enabled) {k n : String}
    {e : Bool} :
    db'.HasRule k n e ↔
      db.HasRule k n e ∨ k = rule.keyword ∧ n = rule.tagName ∧ e = rule.enabled := by
  obtain ⟨mid, id, last, ruleId, hcreate, hinsert, rfl⟩ := importRule_ok h
  obtain ⟨-, -, hrules, -⟩ := createTag_ok hcreate
  have hlast : ∀ k n e, last.HasRule k n e ↔ db.HasRule k n e ∨ k = rule.keyword ∧
      n = rule.tagName ∧ e = true ∧ ¬∃ b, db.HasRule rule.keyword rule.tagName b := by
    intro k n e
    have hmid : ∀ k n e, mid.HasRule k n e ↔ db.HasRule k n e := by simp [HasRule, hrules]
    simp only [insertRule_hasRule hinsert, hmid]
  by_cases hthere : ∃ b, db.HasRule rule.keyword rule.tagName b
  · -- the rule was there with its flag
    obtain ⟨b, hb⟩ := hthere
    obtain rfl := honly b hb
    have hsame : ∀ k n e, last.HasRule k n e ↔ db.HasRule k n e := by
      intro k n e
      rw [hlast, or_iff_left fun hnew => hnew.2.2.2 ⟨_, hb⟩]
    have habsorb : (k = rule.keyword ∧ n = rule.tagName ∧ e = rule.enabled) → db.HasRule k n e := by
      rintro ⟨rfl, rfl, rfl⟩
      exact hb
    rw [or_iff_left_of_imp habsorb]
    cases hon : rule.enabled with
    | true => exact hsame k n e
    | false =>
      rw [if_neg Bool.false_ne_true, disableRule_hasRule]
      split_ifs with hkey
      · obtain ⟨rfl, rfl⟩ := hkey
        refine ⟨fun hoff => hoff.1.symm ▸ hon ▸ hb, fun hold => ?_⟩
        exact ⟨(honly e hold).trans hon, e, (hsame _ _ _).mpr hold⟩
      · exact hsame k n e
  · -- the rule is new
    have hnew : ∀ k n e, last.HasRule k n e ↔
        db.HasRule k n e ∨ k = rule.keyword ∧ n = rule.tagName ∧ e = true := by
      simp only [hlast, hthere, not_false_eq_true, and_true, implies_true]
    cases hon : rule.enabled with
    | true => exact hnew k n e
    | false =>
      rw [if_neg Bool.false_ne_true, disableRule_hasRule]
      split_ifs with hkey
      · obtain ⟨rfl, rfl⟩ := hkey
        constructor
        · rintro ⟨rfl, -⟩
          exact .inr ⟨rfl, rfl, rfl⟩
        · rintro (hold | ⟨-, -, rfl⟩)
          · exact absurd ⟨e, hold⟩ hthere
          · exact ⟨rfl, true, (hnew _ _ _).mpr (.inr ⟨rfl, rfl, rfl⟩)⟩
      · rw [hnew]
        exact or_congr_right ⟨fun hmatch => absurd ⟨hmatch.1, hmatch.2.1⟩ hkey,
          fun hmatch => absurd ⟨hmatch.1, hmatch.2.1⟩ hkey⟩

/-- A rule that is there is imported without a change. -/
theorem importRule_sameRows {clock : ℕ → ℤ × ℤ} {count : ℕ} {db : Db} {rule : TagRule}
    (hname : db.HasName rule.tagName)
    (hrule : db.HasRule rule.keyword rule.tagName rule.enabled) :
    SameRows db (importRule clock count db rule).1 := by
  have htag := createTag_sameRows hname (clock count).2 none none
  rw [importRule, addRule]
  cases hcreate : db.createTag (clock count).2 rule.tagName none none with
  | mk mid result =>
    rw [hcreate] at htag
    cases result with
    | error e => exact htag
    | ok id =>
      have hadd := htag.trans (insertRule_sameRows (htag.hasRule.mpr hrule) (clock count).1)
      cases hinsert : mid.insertRule (clock count).1 rule.keyword rule.tagName with
      | mk last result =>
        simp only [hinsert]
        rw [hinsert] at hadd
        cases result with
        | error e => exact hadd
        | ok _ =>
          show SameRows db
            (if rule.enabled then last else last.disableRule rule.keyword rule.tagName)
          cases hon : rule.enabled with
          | true => exact hadd
          | false => exact hadd.trans (disableRule_sameRows (hadd.hasRule.mpr (hon ▸ hrule)))

/-! ### A document -/

/-- What a document tag that was inserted leaves as it was. -/
theorem insertDocTag_ok {db db' : Db} {now docId tagId : ℤ} {source : String}
    (h : db.insertDocTag now docId tagId source = (db', .ok ())) :
    db'.tags = db.tags ∧ db'.rules = db.rules ∧
      (db'.docTags.rows = db.docTags.rows ∧ db.HasDoc tagId docId ∨
        ¬db.HasDoc tagId docId ∧
          ∃ id, db'.docTags.rows = db.docTags.rows ++ [⟨id, docId, tagId, source, now⟩]) := by
  rw [insertDocTag] at h
  split at h
  · cases h
  · split at h
    next r hr =>
      obtain ⟨hmem, hkey⟩ := db.docTags.byKey_eq_some.mp hr
      obtain ⟨hdoc, htag⟩ := Prod.mk.inj hkey
      cases h
      exact ⟨rfl, rfl, .inl ⟨rfl, r, hmem, htag, hdoc⟩⟩
    next hnone =>
      split at h
      next =>
        cases h
        refine ⟨rfl, rfl, .inr ⟨?_, _, rfl⟩⟩
        rintro ⟨r, hr, rfl, rfl⟩
        exact db.docTags.byKey_eq_none.mp hnone r hr rfl
      next => cases h

/-- The statements of an imported association. -/
theorem importDocTag_ok {clock : ℕ → ℤ × ℤ} {count : ℕ} {db db' : Db} {dt : DocTag}
    (h : importDocTag clock count db dt = (db', .ok ())) :
    ∃ mid id, db.createTag (clock count).2 dt.tagName none none = (mid, .ok id) ∧
      mid.insertDocTag (clock count).1 dt.docId id dt.source = (db', .ok ()) := by
  rw [importDocTag, tagDoc] at h
  split at h
  next => cases h
  next mid id hcreate => exact ⟨mid, id, hcreate, h⟩

/-- A document of a tag that is there. -/
theorem importDocTag_rows {clock : ℕ → ℤ × ℤ} {count : ℕ} {db db' : Db} {dt : DocTag}
    (h : importDocTag clock count db dt = (db', .ok ())) (hname : db.HasName dt.tagName) :
    db'.tags.rows = db.tags.rows ∧ db'.rules = db.rules := by
  obtain ⟨mid, id, hcreate, hinsert⟩ := importDocTag_ok h
  obtain ⟨htags, hrules, -⟩ := insertDocTag_ok hinsert
  obtain ⟨-, -, hsame, -⟩ := createTag_ok hcreate
  have hrows := (createTag_sameRows hname (clock count).2 none none).tags
  rw [hcreate] at hrows
  exact ⟨(congrArg Table.rows htags).trans hrows, hrules.trans hsame⟩

/-- After its import a document tag is there. -/
theorem importDocTag_hasDocTag {clock : ℕ → ℤ × ℤ} {count : ℕ} {db db' : Db} {dt : DocTag}
    (h : importDocTag clock count db dt = (db', .ok ())) (hname : db.HasName dt.tagName)
    (honly : ∀ s, db.HasDocTag dt.docId dt.tagName s → s = dt.source) {d : ℤ} {n s : String} :
    db'.HasDocTag d n s ↔
      db.HasDocTag d n s ∨ d = dt.docId ∧ n = dt.tagName ∧ s = dt.source := by
  obtain ⟨htags, -⟩ := importDocTag_rows h hname
  obtain ⟨mid, id, hcreate, hinsert⟩ := importDocTag_ok h
  obtain ⟨⟨t, ht, htname, rfl⟩, hdocTags, -⟩ := createTag_ok hcreate
  have hmem : t ∈ db.tags.rows := by
    have hrows := (createTag_sameRows hname (clock count).2 none none).tags
    rw [hcreate] at hrows
    exact hrows ▸ ht
  obtain ⟨-, -, ⟨hrows, hthere⟩ | ⟨-, i, hrows⟩⟩ := insertDocTag_ok hinsert
  · -- the document has the tag already
    obtain ⟨r, hr, htag, hdoc⟩ := hthere
    rw [hdocTags] at hr hrows
    have hold : db.HasDocTag dt.docId dt.tagName r.source :=
      ⟨t, hmem, htname, r, hr, htag, hdoc, rfl⟩
    have habsorb : (d = dt.docId ∧ n = dt.tagName ∧ s = dt.source) → db.HasDocTag d n s := by
      rintro ⟨rfl, rfl, rfl⟩
      exact honly _ hold ▸ hold
    rw [or_iff_left_of_imp habsorb, HasDocTag, htags, hrows, HasDocTag]
  · rw [hdocTags] at hrows
    simp only [HasDocTag, htags, hrows, List.mem_append, List.mem_singleton, or_and_right,
      exists_or, exists_eq_left, and_or_left]
    refine or_congr_right ⟨?_, ?_⟩
    · rintro ⟨x, hx, rfl, hid, rfl, rfl⟩
      obtain rfl := db.tags.eq_of_id hx hmem hid.symm
      exact ⟨rfl, htname, rfl⟩
    · rintro ⟨rfl, rfl, rfl⟩
      exact ⟨t, hmem, htname, rfl, rfl, rfl⟩

/-- A document tag that is there is imported without a change. -/
theorem importDocTag_sameRows {clock : ℕ → ℤ × ℤ} {count : ℕ} {db : Db} {dt : DocTag}
    (h : db.HasDocTag dt.docId dt.tagName dt.source) :
    SameRows db (importDocTag clock count db dt).1 := by
  obtain ⟨t, ht, hname, r, hr, htag, hdoc, -⟩ := h
  have hsame := createTag_sameRows ⟨t, ht, hname⟩ (clock count).2 none none
  rw [importDocTag, tagDoc]
  split
  next mid _ hcreate => rwa [hcreate] at hsame
  next mid id hcreate =>
    rw [hcreate] at hsame
    obtain ⟨⟨u, hu, huname, rfl⟩, -⟩ := createTag_ok hcreate
    rw [hsame.tags] at hu
    obtain rfl := db.tags.eq_of_key hu ht (huname.trans hname.symm)
    refine hsame.trans ?_
    rw [insertDocTag]
    split
    · exact .refl mid
    · split
      next => exact ⟨rfl, rfl, rfl⟩
      next hnone =>
        exact absurd (Prod.ext hdoc htag)
          (mid.docTags.byKey_eq_none.mp hnone r (hsame.docTags.symm ▸ hr))

/-! ## The rows of an export -/

namespace Exports

variable {db : Db} {data : TagExport}

theorem mem_tags (h : db.Exports data) {t : TagRow} : t ∈ data.tags ↔ t ∈ db.tags.rows :=
  h.tags.mem_iff

theorem hasTagRow_iff (h : db.Exports data) {name : String} {color description : Option String} :
    db.HasTagRow name color description ↔
      ∃ t ∈ data.tags, t.name = name ∧ t.color = color ∧ t.description = description := by
  simp only [HasTagRow, h.mem_tags]

theorem hasRule_iff (h : db.Exports data) {keyword tagName : String} {enabled : Bool} :
    db.HasRule keyword tagName enabled ↔
      ∃ r ∈ data.rules, r.keyword = keyword ∧ r.tagName = tagName ∧ r.enabled = enabled := by
  simp only [HasRule, h.rules.mem_iff, List.mem_map, exists_exists_and_eq_and, ruleOf]

theorem hasDocTag_iff (h : db.Exports data) {docId : ℤ} {name source : String} :
    db.HasDocTag docId name source ↔
      ∃ dt ∈ data.docTags, dt.docId = docId ∧ dt.tagName = name ∧ dt.source = source := by
  simp only [h.docTags.mem_iff, joinedTags, List.mem_flatMap, List.mem_map, List.mem_filter,
    decide_eq_true_eq]
  constructor
  · rintro ⟨t, ht, rfl, r, hr, htag, rfl, rfl⟩
    exact ⟨_, ⟨r, hr, t, ⟨ht, htag.symm⟩, rfl⟩, rfl, rfl, rfl⟩
  · rintro ⟨_, ⟨r, hr, t, ⟨ht, hid⟩, rfl⟩, rfl, rfl, rfl⟩
    exact ⟨t, ht, rfl, r, hr, hid.symm, rfl, rfl⟩

/-- A tag is exported once. -/
theorem tag_unique (h : db.Exports data) {a b : TagRow} (ha : a ∈ data.tags) (hb : b ∈ data.tags)
    (hname : a.name = b.name) : a = b :=
  db.tags.eq_of_key (h.mem_tags.mp ha) (h.mem_tags.mp hb) hname

end Exports

/-- A rule has one flag. -/
theorem hasRule_unique {db : Db} {keyword tagName : String} {a b : Bool}
    (ha : db.HasRule keyword tagName a) (hb : db.HasRule keyword tagName b) : a = b := by
  obtain ⟨r, hr, rfl, rfl, rfl⟩ := ha
  obtain ⟨x, hx, hkeyword, hname, rfl⟩ := hb
  rw [db.rules.eq_of_key hx hr (Prod.ext hkeyword hname)]

/-- A document has a tag from one source. -/
theorem hasDocTag_unique {db : Db} {docId : ℤ} {name a b : String}
    (ha : db.HasDocTag docId name a) (hb : db.HasDocTag docId name b) : a = b := by
  obtain ⟨t, ht, rfl, r, hr, htag, rfl, rfl⟩ := ha
  obtain ⟨u, hu, hname, x, hx, hxtag, hdoc, rfl⟩ := hb
  obtain rfl := db.tags.eq_of_key hu ht hname
  rw [db.docTags.eq_of_key hx hr (Prod.ext hdoc (hxtag.trans htag.symm))]

/-! ## The import as a whole -/

section Import

variable {db : Db} {data : TagExport} {clock : ℕ → ℤ × ℤ}

/-- The tags are the ones that were exported. -/
theorem import_tags (h : db.Exports data) {mid : Db} {count n : ℕ}
    (hloop : forEach (importTag clock) count new data.tags = (mid, .ok n)) :
    (∀ name color description,
        mid.HasTagRow name color description ↔ db.HasTagRow name color description) ∧
      mid.docTags.rows = [] ∧ mid.rules.rows = [] := by
  simp only [h.hasTagRow_iff]
  refine forEach_ok (P := fun done db => (∀ n c d, db.HasTagRow n c d ↔
      ∃ t ∈ done, t.name = n ∧ t.color = c ∧ t.description = d) ∧
      db.docTags.rows = [] ∧ db.rules.rows = []) ?_ ?_ hloop
  · rintro i db₁ db₂ done a hdone ⟨htags, hdocTags, hrules⟩ hstep
    obtain ⟨id, hcreate⟩ : ∃ id, db₁.createTag (clock i).1 a.name a.color a.description =
        (db₂, .ok id) := by
      rw [importTag] at hstep
      split at hstep
      next => cases hstep
      next id hcreate =>
        cases hstep
        exact ⟨id, hcreate⟩
    obtain ⟨-, hdocTags', hrules', -⟩ := createTag_ok hcreate
    refine ⟨fun n c d => ?_, hdocTags'.symm ▸ hdocTags, hrules'.symm ▸ hrules⟩
    have honly : ∀ t ∈ db₁.tags.rows, t.name = a.name →
        t.color = a.color ∧ t.description = a.description := by
      intro t ht hname
      obtain ⟨x, hx, hxname, hcolor, hdescription⟩ := (htags _ _ _).mp ⟨t, ht, rfl, rfl, rfl⟩
      obtain rfl := h.tag_unique (hdone.subset (List.mem_append_left _ hx))
        (hdone.subset (List.mem_append_right _ (List.mem_singleton_self a))) (hxname.trans hname)
      exact ⟨hcolor.symm, hdescription.symm⟩
    rw [createTag_hasTagRow_of_only hcreate honly, htags]
    simp only [List.mem_append, List.mem_singleton, or_and_right, exists_or, exists_eq_left]
    exact or_congr_right (and_congr eq_comm (and_congr eq_comm eq_comm))
  · exact ⟨by simp [HasTagRow, new, Table.empty], rfl, rfl⟩

/-- The rules are added, and the tags that they miss. -/
theorem import_rules (h : db.Exports data) {mid last : Db} {count n : ℕ}
    (htags : ∀ name color description,
      mid.HasTagRow name color description ↔ db.HasTagRow name color description)
    (hdocTags : mid.docTags.rows = []) (hrules : mid.rules.rows = [])
    (hloop : forEach (importRule clock) count mid data.rules = (last, .ok n)) :
    (∀ name color description, last.HasTagRow name color description ↔
        db.HasTagRow name color description ∨ color = none ∧ description = none ∧
          ¬db.HasName name ∧ ∃ r ∈ data.rules, r.tagName = name) ∧
      (∀ keyword tagName enabled,
        last.HasRule keyword tagName enabled ↔ db.HasRule keyword tagName enabled) ∧
      last.docTags.rows = [] := by
  simp only [h.hasRule_iff]
  refine forEach_ok (P := fun done last => (∀ n c d, last.HasTagRow n c d ↔
      db.HasTagRow n c d ∨ c = none ∧ d = none ∧ ¬db.HasName n ∧ ∃ r ∈ done, r.tagName = n) ∧
      (∀ k n e, last.HasRule k n e ↔
        ∃ r ∈ done, r.keyword = k ∧ r.tagName = n ∧ r.enabled = e) ∧
      last.docTags.rows = []) ?_ ?_ hloop
  · rintro i db₁ db₂ done a hdone ⟨htag, hrule, hdocTag⟩ hstep
    obtain ⟨created, id, hcreate, hcreated, hsame⟩ := importRule_tags hstep
    refine ⟨fun n c d => ?_, fun k n e => ?_, hsame ▸ hdocTag⟩
    · have hrow : db₂.HasTagRow n c d ↔ created.HasTagRow n c d := by
        rw [HasTagRow, hcreated, HasTagRow]
      have hname : db₁.HasName a.tagName ↔
          db.HasName a.tagName ∨ ∃ r ∈ done, r.tagName = a.tagName := by
        simp only [hasName_iff, htag]
        constructor
        · rintro ⟨c, d, hold | ⟨-, -, -, hr⟩⟩
          · exact .inl ⟨c, d, hold⟩
          · exact .inr hr
        · intro hthere
          by_cases hold : ∃ c d, db.HasTagRow a.tagName c d
          · obtain ⟨c, d, hrow⟩ := hold
            exact ⟨c, d, .inl hrow⟩
          · exact ⟨none, none, .inr ⟨rfl, rfl, hold, hthere.resolve_left hold⟩⟩
      rw [hrow, createTag_hasTagRow hcreate, htag, hname, or_assoc]
      refine or_congr_right ⟨?_, ?_⟩
      · rintro (⟨rfl, rfl, hnot, r, hr, hrname⟩ | ⟨rfl, rfl, rfl, hnot⟩)
        · exact ⟨rfl, rfl, hnot, r, List.mem_append_left _ hr, hrname⟩
        · exact ⟨rfl, rfl, fun hold => hnot (.inl hold), a,
            List.mem_append_right _ (List.mem_singleton_self a), rfl⟩
      · rintro ⟨rfl, rfl, hnot, r, hr, rfl⟩
        by_cases hbefore : ∃ x ∈ done, x.tagName = r.tagName
        · exact .inl ⟨rfl, rfl, hnot, hbefore⟩
        · rcases List.mem_append.mp hr with hr | hr
          · exact absurd ⟨r, hr, rfl⟩ hbefore
          · obtain rfl := List.mem_singleton.mp hr
            exact .inr ⟨rfl, rfl, rfl, not_or.mpr ⟨hnot, hbefore⟩⟩
    · have honly : ∀ b, db₁.HasRule a.keyword a.tagName b → b = a.enabled := by
        intro b hb
        obtain ⟨r, hr, hk, hn, rfl⟩ := (hrule _ _ _).mp hb
        refine hasRule_unique (h.hasRule_iff.mpr ⟨r, ?_, hk, hn, rfl⟩)
          (h.hasRule_iff.mpr ⟨a, ?_, rfl, rfl, rfl⟩)
        · exact hdone.subset (List.mem_append_left _ hr)
        · exact hdone.subset (List.mem_append_right _ (List.mem_singleton_self a))
      rw [importRule_hasRule hstep honly, hrule]
      simp only [List.mem_append, List.mem_singleton, or_and_right, exists_or, exists_eq_left]
      exact or_congr_right (and_congr eq_comm (and_congr eq_comm eq_comm))
  · exact ⟨by simp [htags], by simp [HasRule, hrules], hdocTags⟩

/-- The documents get tags that are there. -/
theorem import_docTags (h : db.Exports data) {mid last : Db} {count n : ℕ}
    (hnames : ∀ dt ∈ data.docTags, mid.HasName dt.tagName) (hdocTags : mid.docTags.rows = [])
    (hloop : forEach (importDocTag clock) count mid data.docTags = (last, .ok n)) :
    last.tags.rows = mid.tags.rows ∧ last.rules = mid.rules ∧
      ∀ docId name source, last.HasDocTag docId name source ↔ db.HasDocTag docId name source := by
  simp only [h.hasDocTag_iff]
  refine forEach_ok (P := fun done last => last.tags.rows = mid.tags.rows ∧ last.rules = mid.rules ∧
      ∀ d n s, last.HasDocTag d n s ↔
        ∃ dt ∈ done, dt.docId = d ∧ dt.tagName = n ∧ dt.source = s) ?_ ?_ hloop
  · rintro i db₁ db₂ done a hdone ⟨htags, hrules, hdocTag⟩ hstep
    have ha : a ∈ data.docTags := hdone.subset (List.mem_append_right _ (List.mem_singleton_self a))
    have hname : db₁.HasName a.tagName := by
      rw [HasName, htags]
      exact hnames a ha
    have honly : ∀ s, db₁.HasDocTag a.docId a.tagName s → s = a.source := by
      intro s hs
      obtain ⟨x, hx, hd, hn, rfl⟩ := (hdocTag _ _ _).mp hs
      exact hasDocTag_unique (h.hasDocTag_iff.mpr
        ⟨x, hdone.subset (List.mem_append_left _ hx), hd, hn, rfl⟩)
        (h.hasDocTag_iff.mpr ⟨a, ha, rfl, rfl, rfl⟩)
    obtain ⟨htags', hrules'⟩ := importDocTag_rows hstep hname
    refine ⟨htags'.trans htags, hrules'.trans hrules, fun d n s => ?_⟩
    rw [importDocTag_hasDocTag hstep hname honly, hdocTag]
    simp only [List.mem_append, List.mem_singleton, or_and_right, exists_or, exists_eq_left]
    exact or_congr_right (and_congr eq_comm (and_congr eq_comm eq_comm))
  · exact ⟨rfl, rfl, by simp [HasDocTag, hdocTags]⟩

/-- An import into empty tables that goes through restores what was exported. -/
theorem importTags_restored (h : db.Exports data) {last : Db} {n : ℕ}
    (himport : new.importTags clock data = (last, .ok n)) : Restored db last := by
  rw [importTags] at himport
  split at himport
  next => cases himport
  next db₁ n₁ hloop₁ =>
    split at himport
    next => cases himport
    next db₂ n₂ hloop₂ =>
      obtain ⟨htags₁, hdocTags₁, hrules₁⟩ := import_tags h hloop₁
      obtain ⟨htags₂, hrules₂, hdocTags₂⟩ := import_rules h htags₁ hdocTags₁ hrules₁ hloop₂
      have hnames : ∀ dt ∈ data.docTags, db₂.HasName dt.tagName := by
        intro dt hdt
        obtain ⟨t, ht, hname, -⟩ := h.hasDocTag_iff.mpr ⟨dt, hdt, rfl, rfl, rfl⟩
        exact hasName_iff.mpr ⟨_, _, (htags₂ _ _ _).mpr (.inl ⟨t, ht, hname, rfl, rfl⟩)⟩
      obtain ⟨htags, hrules, hdocTags⟩ := import_docTags h hnames hdocTags₂ himport
      refine ⟨fun name color description => ?_, fun keyword tagName enabled => ?_, hdocTags⟩
      · have hrow : last.HasTagRow name color description ↔
            db₂.HasTagRow name color description := by rw [HasTagRow, htags, HasTagRow]
        have hmissing : (∃ r ∈ data.rules, r.tagName = name) ↔
            ∃ r ∈ db.rules.rows, r.tagName = name := by
          simp only [h.rules.mem_iff, List.mem_map, exists_exists_and_eq_and, ruleOf]
        rw [hrow, htags₂, hmissing]
      · rw [HasRule, hrules, ← HasRule, hrules₂]

/-- Every row is there already, so an import changes none. -/
theorem importTags_sameRows (h : db.Exports data) {last : Db} (hrestored : Restored db last) :
    SameRows last (last.importTags clock data).1 := by
  have htag : ∀ t ∈ data.tags, last.HasName t.name := fun t ht =>
    hasName_iff.mpr ⟨_, _, (hrestored.tags _ _ _).mpr
      (.inl (h.hasTagRow_iff.mpr ⟨t, ht, rfl, rfl, rfl⟩))⟩
  have hrule : ∀ r ∈ data.rules, last.HasRule r.keyword r.tagName r.enabled := fun r hr =>
    (hrestored.rules _ _ _).mpr (h.hasRule_iff.mpr ⟨r, hr, rfl, rfl, rfl⟩)
  have hdocTag : ∀ dt ∈ data.docTags, last.HasDocTag dt.docId dt.tagName dt.source := fun dt hdt =>
    (hrestored.docTags _ _ _).mpr (h.hasDocTag_iff.mpr ⟨dt, hdt, rfl, rfl, rfl⟩)
  have hruleName : ∀ r ∈ data.rules, last.HasName r.tagName := by
    intro r hr
    by_cases hold : db.HasName r.tagName
    · obtain ⟨c, d, hrow⟩ := hasName_iff.mp hold
      exact hasName_iff.mpr ⟨c, d, (hrestored.tags _ _ _).mpr (.inl hrow)⟩
    · obtain ⟨x, hx, rfl⟩ := List.mem_map.mp (h.rules.mem_iff.mp hr)
      exact hasName_iff.mpr ⟨none, none, (hrestored.tags _ _ _).mpr
        (.inr ⟨rfl, rfl, hold, x, hx, rfl⟩)⟩
  have hloop₁ : SameRows last (forEach (importTag clock) 0 last data.tags).1 := by
    refine forEach_keeps (fun count mid t ht hsame => ?_) (.refl last)
    have hstep := hsame.trans (createTag_sameRows (hsame.hasName.mpr (htag t ht)) (clock count).1
      t.color t.description)
    rw [importTag]
    split <;> (next heq => rwa [heq] at hstep)
  have hloop₂ : ∀ count mid, SameRows last mid →
      SameRows last (forEach (importRule clock) count mid data.rules).1 := fun count mid =>
    forEach_keeps fun _ _ r hr hsame => hsame.trans (importRule_sameRows
      (hsame.hasName.mpr (hruleName r hr)) (hsame.hasRule.mpr (hrule r hr)))
  have hloop₃ : ∀ count mid, SameRows last mid →
      SameRows last (forEach (importDocTag clock) count mid data.docTags).1 := fun count mid =>
    forEach_keeps fun _ _ dt hdt hsame => hsame.trans (importDocTag_sameRows
      (hsame.hasDocTag.mpr (hdocTag dt hdt)))
  rw [importTags]
  split
  next heq => rwa [heq] at hloop₁
  next mid count heq =>
    rw [heq] at hloop₁
    have hmid := hloop₂ count mid hloop₁
    split
    next heq' => rwa [heq'] at hmid
    next mid' count' heq' =>
      rw [heq'] at hmid
      exact hloop₃ count' mid' hmid

end Import

/-! ### Room for the rows -/

/-- There are ids for so many more rows in each table. -/
structure Room (k : ℕ) (db : Db) : Prop where
  tags : db.tags.seq + k ≤ maxRowid
  docTags : db.docTags.seq + k ≤ maxRowid
  rules : db.rules.seq + k ≤ maxRowid

theorem insertRule_succeeds {db : Db} (h : db.rules.seq < maxRowid) (now : ℤ)
    (keyword tagName : String) :
    ∃ db' id, db.insertRule now keyword tagName = (db', .ok id) ∧
      db'.rules.seq = db.rules.seq + 1 ∧ db'.tags = db.tags ∧ db'.docTags = db.docTags := by
  rw [insertRule, if_neg (not_not.mpr h)]
  split
  next => exact ⟨_, _, rfl, rfl, rfl, rfl⟩
  next => exact ⟨_, _, rfl, rfl, rfl, rfl⟩

theorem insertDocTag_succeeds {db : Db} {tagId : ℤ} (h : db.docTags.seq < maxRowid)
    (htag : db.HasTag tagId) (now docId : ℤ) (source : String) :
    ∃ db', db.insertDocTag now docId tagId source = (db', .ok ()) ∧
      db'.docTags.seq = db.docTags.seq + 1 ∧ db'.tags = db.tags ∧ db'.rules = db.rules := by
  rw [insertDocTag, if_neg (not_not.mpr h)]
  split
  next => exact ⟨_, rfl, rfl, rfl, rfl⟩
  next => exact ⟨_, dif_pos htag, rfl, rfl, rfl⟩

section Succeeds

variable {clock : ℕ → ℤ × ℤ} {count k : ℕ} {db : Db}

/-- A tag can be imported while there is room. -/
theorem importTag_succeeds {tag : TagRow} (h : Room (k + 1) db) :
    ∃ db', importTag clock count db tag = (db', .ok ()) ∧ Room k db' := by
  obtain ⟨htags, hdocTags, hrules⟩ := h
  push_cast at htags hdocTags hrules
  have hfree : db.tags.seq < maxRowid := by omega
  obtain ⟨db', id, hcreate, hseq, hdocTags', hrules'⟩ := createTag_succeeds hfree (clock count).1
    tag.name tag.color tag.description
  refine ⟨db', by rw [importTag, hcreate], ?_, ?_, ?_⟩
  · omega
  · rw [hdocTags']
    omega
  · rw [hrules']
    omega

/-- So can a rule. -/
theorem importRule_succeeds {rule : TagRule} (h : Room (k + 1) db) :
    ∃ db', importRule clock count db rule = (db', .ok ()) ∧ Room k db' := by
  obtain ⟨htags, hdocTags, hrules⟩ := h
  push_cast at htags hdocTags hrules
  have hfree : db.tags.seq < maxRowid := by omega
  obtain ⟨mid, id, hcreate, hseq, hdocTags', hrules'⟩ := createTag_succeeds hfree (clock count).2
    rule.tagName none none
  have hruleFree : mid.rules.seq < maxRowid := by
    rw [hrules']
    omega
  obtain ⟨last, ruleId, hinsert, hruleSeq, htags'', hdocTags''⟩ := insertRule_succeeds hruleFree
    (clock count).1 rule.keyword rule.tagName
  have hroom : Room k last := by
    refine ⟨?_, ?_, ?_⟩
    · rw [htags'']
      omega
    · rw [hdocTags'', hdocTags']
      omega
    · rw [hruleSeq, hrules']
      omega
  refine ⟨if rule.enabled then last else last.disableRule rule.keyword rule.tagName, ?_, ?_⟩
  · rw [importRule, addRule, hcreate]
    simp only [hinsert]
  · split_ifs
    · exact hroom
    · exact ⟨hroom.tags, hroom.docTags, hroom.rules⟩

/-- So can a document tag. -/
theorem importDocTag_succeeds {dt : DocTag} (h : Room (k + 1) db) :
    ∃ db', importDocTag clock count db dt = (db', .ok ()) ∧ Room k db' := by
  obtain ⟨htags, hdocTags, hrules⟩ := h
  push_cast at htags hdocTags hrules
  have hfree : db.tags.seq < maxRowid := by omega
  obtain ⟨mid, id, hcreate, hseq, hdocTags', hrules'⟩ := createTag_succeeds hfree (clock count).2
    dt.tagName none none
  obtain ⟨⟨t, ht, -, hid⟩, -⟩ := createTag_ok hcreate
  have hdocFree : mid.docTags.seq < maxRowid := by
    rw [hdocTags']
    omega
  obtain ⟨last, hinsert, hdocSeq, htags'', hrules''⟩ := insertDocTag_succeeds hdocFree ⟨t, ht, hid⟩
    (clock count).1 dt.docId dt.source
  have hstep : importDocTag clock count db dt = (last, .ok ()) := by
    rw [importDocTag, tagDoc, hcreate]
    exact hinsert
  refine ⟨last, hstep, ?_, ?_, ?_⟩
  · rw [htags'']
    omega
  · rw [hdocSeq, hdocTags']
    omega
  · rw [hrules'', hrules']
    omega

/-- While there is room, all of an export is imported. -/
theorem importTags_succeeds {data : TagExport} (h : Room (data.size + k) db)
    (clock : ℕ → ℤ × ℤ) : ∃ db', db.importTags clock data = (db', .ok data.size) ∧ Room k db' := by
  have hroom : Room (data.tags.length + (data.rules.length + (data.docTags.length + k))) db := by
    rwa [TagExport.size, Nat.add_assoc, Nat.add_assoc] at h
  obtain ⟨db₁, hloop₁, hroom₁⟩ := forEach_succeeds (f := importTag clock)
    (fun _ _ _ _ => importTag_succeeds) hroom 0
  obtain ⟨db₂, hloop₂, hroom₂⟩ := forEach_succeeds (f := importRule clock)
    (fun _ _ _ _ => importRule_succeeds) hroom₁ (0 + data.tags.length)
  obtain ⟨db₃, hloop₃, hroom₃⟩ := forEach_succeeds (f := importDocTag clock)
    (fun _ _ _ _ => importDocTag_succeeds) hroom₂ (0 + data.tags.length + data.rules.length)
  refine ⟨db₃, ?_, hroom₃⟩
  simp only [importTags, hloop₁, hloop₂, hloop₃]
  rw [Nat.zero_add, TagExport.size]

end Succeeds

/-- An import into empty tables restores what was exported, and a second one changes no row. Both go
through unless there are more rows than ids. -/
theorem import_restores {db : Db} {data : TagExport} (h : db.Exports data)
    (clock clock' : ℕ → ℤ × ℤ) :
    (data.size ≤ maxRowid → ∃ last, new.importTags clock data = (last, .ok data.size)) ∧
      ∀ last n, new.importTags clock data = (last, .ok n) →
        Restored db last ∧ SameRows last (last.importTags clock' data).1 ∧
          (2 * data.size ≤ maxRowid → (last.importTags clock' data).2 = .ok data.size) := by
  have hnew : ∀ k : ℕ, k ≤ maxRowid → Room k new := fun k hk => by
    constructor <;> exact (zero_add (k : ℤ)).symm ▸ hk
  refine ⟨fun hfits => ?_, fun last n himport => ?_⟩
  · have hroom : Room (data.size + 0) new := hnew data.size hfits
    obtain ⟨last, himport, -⟩ := importTags_succeeds hroom clock
    exact ⟨last, himport⟩
  · have hrestored := importTags_restored h himport
    refine ⟨hrestored, importTags_sameRows h hrestored, fun hfits => ?_⟩
    have hroom : Room (data.size + data.size) new := by
      refine hnew _ ?_
      push_cast
      omega
    obtain ⟨last', himport', hleft⟩ := importTags_succeeds hroom clock
    obtain ⟨rfl, -⟩ := Prod.mk.inj (himport.symm.trans himport')
    have hleft : Room (data.size + 0) last := hleft
    obtain ⟨again, hagain, -⟩ := importTags_succeeds hleft clock'
    rw [hagain]

/-- A rule with its tag, which has no documents. -/
def oneRule : Db := (new.addRule 5 5 "bug" "bugfix").1

/-- The rule is off, another tag has a document, and the tag of the rule is gone. -/
def ruleAndTag : Db :=
  ((oneRule.disableRule "bug" "bugfix").tagDoc 6 6 1 "rust" "manual").1.cleanupOrphans.1

/-- They are restored, and the tag of the rule comes back. -/
theorem ruleAndTag_restored :
    ruleAndTag.HasRule "bug" "bugfix" false ∧ ruleAndTag.HasDocTag 1 "rust" "manual" ∧
      ¬ruleAndTag.HasName "bugfix" ∧
      ∃ last, new.importTags (fun _ => (7, 7)) ruleAndTag.exportTags = (last, .ok 3) ∧
        Restored ruleAndTag last := by
  obtain ⟨hgoes, hrestores⟩ := import_restores ruleAndTag.exportTags_exports (fun _ => (7, 7))
    (fun _ => (8, 8))
  have hsize : ruleAndTag.exportTags.size = 3 := by
    simp only [TagExport.size, exportTags, List.length_mergeSort]
    decide
  rw [hsize] at hgoes
  obtain ⟨last, hlast⟩ := hgoes (by decide)
  exact ⟨by unfold HasRule; decide, by unfold HasDocTag; decide, by unfold HasName; decide, last,
    hlast, (hrestores last _ hlast).1⟩

/-- The import brings back a tag that was deleted. -/
theorem import_adds_missing_tag :
    ∃ (db : Db) (data : TagExport) (last : Db), db.Exports data ∧
      new.importTags (fun _ => (6, 6)) data = (last, .ok data.size) ∧
      last.HasName "bugfix" ∧ ¬db.HasName "bugfix" := by
  refine ⟨oneRule.cleanupOrphans.1, ⟨[], [], [⟨1, "bug", "bugfix", true, 5⟩]⟩, _,
    ⟨.refl _, .refl _, .refl _, by decide, by decide, by decide⟩, rfl, ?_, ?_⟩
  · unfold HasName
    decide
  · unfold HasName
    decide

end Db

end SynapseMemory.Tags
