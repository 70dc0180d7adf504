import SynapseMemory.Events

/-!
# Tags

The model of `tags.rs`: tags by their names, documents and their tags, and the rules that tag
documents by themselves. A tag of a document is there (`Db.linked`), as the foreign key asks for,
and a rule names its tag. An insert that is ignored uses up an id.

`merge_tags` points the documents of one tag to another one and then deletes the first with all that
is left at it. Where both are the same tag this deletes the documents of the tag, so the merge is a
union unless a tag with documents is merged into itself (`mergeTags_merged_iff`).
-/

namespace SynapseMemory.Tags

open Events (UltraError)

/-- A row of `tags`. -/
structure TagRow where
  id : ℤ
  name : String
  color : Option String
  description : Option String
  createdTs : ℤ
  deriving DecidableEq

/-- A row of `doc_tags`. -/
structure DocTagRow where
  id : ℤ
  docId : ℤ
  tagId : ℤ
  source : String
  ts : ℤ
  deriving DecidableEq

/-- A row of `tag_rules`. -/
structure RuleRow where
  id : ℤ
  keyword : String
  tagName : String
  /-- `0` if the rule is off -/
  enabled : ℤ
  createdTs : ℤ
  deriving DecidableEq

/-- The keys of `tags`. -/
def tagSchema : Schema TagRow String Unit where
  id := TagRow.id
  key := TagRow.name
  alt := fun _ => none

/-- The keys of `doc_tags`. -/
def docTagSchema : Schema DocTagRow (ℤ × ℤ) Unit where
  id := DocTagRow.id
  key := fun r => (r.docId, r.tagId)
  alt := fun _ => none

/-- The keys of `tag_rules`. -/
def ruleSchema : Schema RuleRow (String × String) Unit where
  id := RuleRow.id
  key := fun r => (r.keyword, r.tagName)
  alt := fun _ => none

/-- The three tables. A document tag refers to a tag that is there. -/
structure Db where
  tags : Table tagSchema
  docTags : Table docTagSchema
  rules : Table ruleSchema
  linked : ∀ r ∈ docTags.rows, ∃ t ∈ tags.rows, t.id = r.tagId

/-- There is no id left. -/
def full : UltraError := .sqlite "database or disk is full"

/-- The error of a row that refers to nothing. -/
def foreignKeyFailed : UltraError := .sqlite "FOREIGN KEY constraint failed"

namespace Db

/-- The tables as `migrate` makes them. -/
def new : Db := ⟨Table.empty, Table.empty, Table.empty, fun _ hr => (List.not_mem_nil hr).elim⟩

/-- There is a tag with the id. -/
def HasTag (db : Db) (id : ℤ) : Prop := ∃ t ∈ db.tags.rows, t.id = id

instance (db : Db) (id : ℤ) : Decidable (db.HasTag id) :=
  inferInstanceAs (Decidable (∃ t ∈ db.tags.rows, t.id = id))

/-! ## Statements -/

/-- `INSERT OR IGNORE INTO tags`, and the id of the name. -/
def createTag (db : Db) (now : ℤ) (name : String) (color description : Option String) :
    Db × Except UltraError ℤ :=
  if ¬db.tags.seq < maxRowid then (db, .error full)
  else
    match h : db.tags.byKey name with
    | some t => ({ db with tags := db.tags.skip }, .ok t.id)
    | none =>
      ({ db with
          tags := db.tags.insert ⟨db.tags.seq + 1, name, color, description, now⟩ rfl
            (db.tags.byKey_eq_none.mp h) (fun _ _ _ h => nomatch h)
          linked := fun r hr => (db.linked r hr).imp fun _ ht =>
            ⟨List.mem_append_left _ ht.1, ht.2⟩ },
        .ok (db.tags.seq + 1))

/-- `INSERT OR IGNORE INTO doc_tags` -/
def insertDocTag (db : Db) (now docId tagId : ℤ) (source : String) : Db × Except UltraError Unit :=
  if ¬db.docTags.seq < maxRowid then (db, .error full)
  else
    match h : db.docTags.byKey (docId, tagId) with
    | some _ => ({ db with docTags := db.docTags.skip }, .ok ())
    | none =>
      if htag : db.HasTag tagId then
        ({ db with
            docTags := db.docTags.insert ⟨db.docTags.seq + 1, docId, tagId, source, now⟩ rfl
              (db.docTags.byKey_eq_none.mp h) (fun _ _ _ h => nomatch h)
            linked := by
              intro r hr
              rcases List.mem_append.mp hr with hold | hnew
              · exact db.linked r hold
              · obtain rfl := List.mem_singleton.mp hnew
                exact htag },
          .ok ())
      else (db, .error foreignKeyFailed)

/-- `INSERT OR IGNORE INTO tag_rules`, and the id of the rule. -/
def insertRule (db : Db) (now : ℤ) (keyword tagName : String) : Db × Except UltraError ℤ :=
  if ¬db.rules.seq < maxRowid then (db, .error full)
  else
    match h : db.rules.byKey (keyword, tagName) with
    | some r => ({ db with rules := db.rules.skip }, .ok r.id)
    | none =>
      ({ db with
          rules := db.rules.insert ⟨db.rules.seq + 1, keyword, tagName, 1, now⟩ rfl
            (db.rules.byKey_eq_none.mp h) (fun _ _ _ h => nomatch h) },
        .ok (db.rules.seq + 1))

/-- `UPDATE tag_rules SET enabled = 0` -/
def disableRule (db : Db) (keyword tagName : String) : Db :=
  { db with
    rules := db.rules.modify
      (fun r => if r.keyword = keyword ∧ r.tagName = tagName then { r with enabled := 0 } else r)
      (fun r => by split <;> rfl) (fun r => by split <;> rfl) (fun _ => rfl) }

/-- The row moves to a tag that its document does not have. -/
def Moves (db : Db) (fromId toId : ℤ) (r : DocTagRow) : Prop :=
  r.tagId = fromId ∧ ∀ x ∈ db.docTags.rows, x.tagId = toId → x.docId ≠ r.docId

instance (db : Db) (fromId toId : ℤ) (r : DocTagRow) : Decidable (db.Moves fromId toId r) :=
  inferInstanceAs (Decidable (_ ∧ _))

/-- A row after the documents of a tag were given to another. -/
def moved (db : Db) (fromId toId : ℤ) (r : DocTagRow) : DocTagRow :=
  if db.Moves fromId toId r then { r with tagId := toId } else r

/-- No document comes to have the tag twice, so nothing is ignored. -/
theorem moved_nodup (db : Db) (fromId toId : ℤ) :
    ((db.docTags.rows.map (db.moved fromId toId)).map docTagSchema.key).Nodup := by
  rw [List.map_map]
  refine List.Nodup.map_on ?_ (List.Nodup.of_map _ db.docTags.id_nodup)
  intro a ha b hb heq
  obtain ⟨hdoc, htag⟩ := Prod.mk.inj heq
  have hdocs : a.docId = b.docId := by
    simpa only [moved, apply_ite DocTagRow.docId, ite_self] using hdoc
  have htags : a.tagId = b.tagId := by
    simp only [moved, apply_ite DocTagRow.tagId] at htag
    split_ifs at htag with hma hmb hmb
    · rw [hma.1, hmb.1]
    · exact absurd hdocs.symm (hma.2 b hb htag.symm)
    · exact absurd hdocs (hmb.2 a ha htag)
    · exact htag
  exact db.docTags.eq_of_key ha hb (Prod.ext hdocs htags)

/-- `UPDATE OR IGNORE doc_tags SET tag_id` -/
def repoint (db : Db) (fromId toId : ℤ) (hto : db.HasTag toId) : Db :=
  { db with
    docTags := db.docTags.rewrite (db.moved fromId toId)
      (fun r => by simp only [docTagSchema, moved, apply_ite DocTagRow.id, ite_self])
      (db.moved_nodup fromId toId) (by simp [docTagSchema])
    linked := by
      intro r hr
      obtain ⟨x, hx, rfl⟩ := List.mem_map.mp hr
      rw [moved]
      split
      · exact hto
      · exact db.linked x hx }

/-- `DELETE FROM doc_tags WHERE tag_id = ?1` -/
def dropDocTags (db : Db) (tagId : ℤ) : Db :=
  { db with
    docTags := db.docTags.filter fun r => r.tagId ≠ tagId
    linked := fun r hr => db.linked r (List.mem_of_mem_filter hr) }

/-- `DELETE FROM tags WHERE id = ?1`: what is still linked to the tag goes with it. -/
def dropTag (db : Db) (id : ℤ) : Db :=
  { db with
    tags := db.tags.filter fun t => t.id ≠ id
    docTags := db.docTags.filter fun r => r.tagId ≠ id
    linked := by
      intro r hr
      obtain ⟨hmem, hne⟩ := List.mem_filter.mp hr
      obtain ⟨t, ht, hid⟩ := db.linked r hmem
      exact ⟨t, List.mem_filter.mpr ⟨ht, by rw [hid]; exact hne⟩, hid⟩ }

/-! ## Functions -/

/-- `tag_doc` -/
def tagDoc (db : Db) (now tagNow docId : ℤ) (tagName source : String) :
    Db × Except UltraError Unit :=
  match db.createTag tagNow tagName none none with
  | (db, .error e) => (db, .error e)
  | (db, .ok tagId) => db.insertDocTag now docId tagId source

/-- `add_rule` -/
def addRule (db : Db) (now tagNow : ℤ) (keyword tagName : String) : Db × Except UltraError ℤ :=
  match db.createTag tagNow tagName none none with
  | (db, .error e) => (db, .error e)
  | (db, .ok _) => db.insertRule now keyword tagName

/-- `merge_tags` -/
def mergeTags (db : Db) (now : ℤ) (fromName intoName : String) : Db × Except UltraError ℕ :=
  match db.tags.byKey fromName with
  | none => (db, .ok 0)
  | some t =>
    match db.createTag now intoName none none with
    | (db, .error e) => (db, .error e)
    | (db, .ok toId) =>
      if hto : db.HasTag toId then
        (((db.repoint t.id toId hto).dropDocTags t.id).dropTag t.id,
          .ok (db.docTags.rows.countP (db.Moves t.id toId)))
      else (db, .error foreignKeyFailed)

/-- Tags without documents are deleted. -/
def cleanupOrphans (db : Db) : Db × ℕ :=
  let used := fun t : TagRow => db.docTags.rows.any fun r => r.tagId = t.id
  ({ db with
      tags := db.tags.filter used
      linked := by
        intro r hr
        obtain ⟨t, ht, hid⟩ := db.linked r hr
        exact ⟨t, List.mem_filter.mpr ⟨ht, List.any_eq_true.mpr ⟨r, hr, by simp [hid]⟩⟩, hid⟩ },
    db.tags.rows.countP fun t => !used t)

/-! ## Merging -/

/-- The document has the tag. -/
def Tagged (db : Db) (docId : ℤ) (name : String) : Prop :=
  ∃ t ∈ db.tags.rows, t.name = name ∧ ∃ r ∈ db.docTags.rows, r.tagId = t.id ∧ r.docId = docId

/-- The rows that link documents to a tag. -/
def associations (db : Db) (name : String) : List DocTagRow :=
  db.docTags.rows.filter fun r => db.tags.rows.any fun t => t.id = r.tagId && t.name = name

/-- The document has the tag with an id. -/
def HasDoc (db : Db) (tagId docId : ℤ) : Prop :=
  ∃ r ∈ db.docTags.rows, r.tagId = tagId ∧ r.docId = docId

/-- A tag is found by its name. -/
theorem tagged_iff_hasDoc {db : Db} {t : TagRow} (ht : t ∈ db.tags.rows) {docId : ℤ} :
    db.Tagged docId t.name ↔ db.HasDoc t.id docId := by
  constructor
  · rintro ⟨t', ht', hname, hdoc⟩
    obtain rfl := db.tags.eq_of_key ht' ht hname
    exact hdoc
  · intro hdoc
    exact ⟨t, ht, rfl, hdoc⟩

/-- A tag that is there is returned, and any other is inserted. -/
theorem createTag_ok {db db' : Db} {now id : ℤ} {name : String} {color description : Option String}
    (h : db.createTag now name color description = (db', .ok id)) :
    (∃ t ∈ db'.tags.rows, t.name = name ∧ t.id = id) ∧ db'.docTags = db.docTags ∧
      db'.rules = db.rules ∧
      ((db'.tags.rows = db.tags.rows ∧ ∃ t ∈ db.tags.rows, t.name = name) ∨
        (∀ t ∈ db.tags.rows, t.name ≠ name) ∧
          db'.tags.rows = db.tags.rows ++ [⟨id, name, color, description, now⟩]) := by
  rw [createTag] at h
  split at h
  · cases h
  · split at h
    next t ht =>
      obtain ⟨hmem, hname⟩ := (db.tags.byKey_eq_some).mp ht
      cases h
      exact ⟨⟨t, hmem, hname, rfl⟩, rfl, rfl, .inl ⟨rfl, t, hmem, hname⟩⟩
    next hnone =>
      cases h
      refine ⟨⟨_, List.mem_append_right _ (List.mem_singleton_self _), rfl, rfl⟩, rfl, rfl, ?_⟩
      exact .inr ⟨db.tags.byKey_eq_none.mp hnone, rfl⟩

/-- The tags that were there stay, and a new one has the name that was asked for. -/
theorem mem_createTag {db db' : Db} {now id : ℤ} {name : String} {color description : Option String}
    (h : db.createTag now name color description = (db', .ok id)) :
    (∀ t ∈ db.tags.rows, t ∈ db'.tags.rows) ∧
      ∀ t ∈ db'.tags.rows, t ∈ db.tags.rows ∨ t.name = name := by
  obtain ⟨-, -, -, ⟨htags, -⟩ | ⟨-, htags⟩⟩ := createTag_ok h <;> rw [htags]
  · exact ⟨fun _ ht => ht, fun _ ht => .inl ht⟩
  · refine ⟨fun _ ht => List.mem_append_left _ ht, fun t ht => ?_⟩
    rcases List.mem_append.mp ht with hold | hnew
    · exact .inl hold
    · obtain rfl := List.mem_singleton.mp hnew
      exact .inr rfl

/-- A new tag has no documents. -/
theorem createTag_tagged {db db' : Db} {now id : ℤ} {name : String}
    {color description : Option String}
    (h : db.createTag now name color description = (db', .ok id)) (docId : ℤ) (other : String) :
    db'.Tagged docId other ↔ db.Tagged docId other := by
  obtain ⟨-, hdocTags, -, -⟩ := createTag_ok h
  obtain ⟨hkept, -⟩ := mem_createTag h
  constructor
  · rintro ⟨t, ht, hname, r, hr, hid, hdoc⟩
    rw [hdocTags] at hr
    -- the row was linked before, and ids are not given twice
    obtain ⟨t', ht', hid'⟩ := db.linked r hr
    obtain rfl := db'.tags.eq_of_id ht (hkept t' ht') (hid.symm.trans hid'.symm)
    exact ⟨t, ht', hname, r, hr, hid, hdoc⟩
  · rintro ⟨t, ht, hname, r, hr, hid, hdoc⟩
    exact ⟨t, hkept t ht, hname, r, hdocTags ▸ hr, hid, hdoc⟩

/-- The tables after the three statements of a merge. -/
def merge (db : Db) (fromId toId : ℤ) (hto : db.HasTag toId) : Db :=
  ((db.repoint fromId toId hto).dropDocTags fromId).dropTag fromId

theorem mem_merge_tags {db : Db} {fromId toId : ℤ} {hto : db.HasTag toId} {t : TagRow} :
    t ∈ (db.merge fromId toId hto).tags.rows ↔ t ∈ db.tags.rows ∧ t.id ≠ fromId := by
  simp [merge, dropTag, dropDocTags, repoint]

theorem mem_merge_docTags {db : Db} {fromId toId : ℤ} {hto : db.HasTag toId} {r : DocTagRow} :
    r ∈ (db.merge fromId toId hto).docTags.rows ↔
      ∃ x ∈ db.docTags.rows, db.moved fromId toId x = r ∧ r.tagId ≠ fromId := by
  simp only [merge, dropTag, dropDocTags, repoint, Table.rewrite, Table.mem_filter,
    decide_eq_true_eq, List.mem_map]
  constructor
  · rintro ⟨⟨⟨x, hx, hmoved⟩, -⟩, hne⟩
    exact ⟨x, hx, hmoved, hne⟩
  · rintro ⟨x, hx, hmoved, hne⟩
    exact ⟨⟨⟨x, hx, hmoved⟩, hne⟩, hne⟩

theorem moved_of_moves {db : Db} {fromId toId : ℤ} {r : DocTagRow} (h : db.Moves fromId toId r) :
    db.moved fromId toId r = { r with tagId := toId } := if_pos h

theorem moved_of_tagId_ne {db : Db} {fromId toId : ℤ} {r : DocTagRow} (h : r.tagId ≠ fromId) :
    db.moved fromId toId r = r := if_neg fun hmoves => h hmoves.1

/-- Only the two tags of a merge have other documents after it. -/
theorem mem_merge_docTags_of_ne {db : Db} {fromId toId : ℤ} {hto : db.HasTag toId} {r : DocTagRow}
    (hne : r.tagId ≠ toId) :
    r ∈ (db.merge fromId toId hto).docTags.rows ↔ r ∈ db.docTags.rows ∧ r.tagId ≠ fromId := by
  rw [mem_merge_docTags]
  constructor
  · rintro ⟨x, hx, rfl, htag⟩
    by_cases hmoves : db.Moves fromId toId x
    · rw [moved_of_moves hmoves] at hne
      exact absurd rfl hne
    · rw [moved, if_neg hmoves] at htag ⊢
      exact ⟨hx, htag⟩
  · rintro ⟨hr, htag⟩
    exact ⟨r, hr, moved_of_tagId_ne htag, htag⟩

/-- The documents of both tags come together. -/
theorem merge_hasDoc {db : Db} {fromId toId : ℤ} {hto : db.HasTag toId} (hne : toId ≠ fromId)
    {docId : ℤ} :
    (db.merge fromId toId hto).HasDoc toId docId ↔
      db.HasDoc fromId docId ∨ db.HasDoc toId docId := by
  constructor
  · rintro ⟨r, hr, htag, hdoc⟩
    obtain ⟨x, hx, rfl, -⟩ := mem_merge_docTags.mp hr
    by_cases hmoves : db.Moves fromId toId x
    · rw [moved_of_moves hmoves] at hdoc
      exact .inl ⟨x, hx, hmoves.1, hdoc⟩
    · rw [moved, if_neg hmoves] at htag hdoc
      exact .inr ⟨x, hx, htag, hdoc⟩
  · intro h
    by_cases hhad : db.HasDoc toId docId
    · obtain ⟨r, hr, htag, hdoc⟩ := hhad
      have hstay : r.tagId ≠ fromId := htag ▸ hne
      exact ⟨r, mem_merge_docTags.mpr ⟨r, hr, moved_of_tagId_ne hstay, hstay⟩, htag, hdoc⟩
    · obtain ⟨r, hr, htag, hdoc⟩ := h.resolve_right hhad
      have hmoves : db.Moves fromId toId r :=
        ⟨htag, fun x hx hxtag heq => hhad ⟨x, hx, hxtag, heq.trans hdoc⟩⟩
      exact ⟨{ r with tagId := toId },
        mem_merge_docTags.mpr ⟨r, hr, moved_of_moves hmoves, hne⟩, rfl, hdoc⟩

/-- What a merge is for. -/
structure Merged (fromName intoName : String) (db db' : Db) : Prop where
  union : ∀ docId, db'.Tagged docId intoName ↔
    db.Tagged docId fromName ∨ db.Tagged docId intoName
  gone : fromName ≠ intoName → ∀ t ∈ db'.tags.rows, t.name ≠ fromName
  others : ∀ name, name ≠ fromName → name ≠ intoName →
    db'.associations name = db.associations name

/-- A merge that succeeds found no tag, or it ran all of its statements. -/
theorem mergeTags_ok {db db' : Db} {now : ℤ} {fromName intoName : String} {moved : ℕ}
    (h : db.mergeTags now fromName intoName = (db', .ok moved)) :
    (db' = db ∧ ∀ t ∈ db.tags.rows, t.name ≠ fromName) ∨
      ∃ t ∈ db.tags.rows, t.name = fromName ∧ ∃ mid toId, ∃ hto : mid.HasTag toId,
        db.createTag now intoName none none = (mid, .ok toId) ∧ db' = mid.merge t.id toId hto := by
  rw [mergeTags] at h
  split at h
  next hnone =>
    cases h
    exact .inl ⟨rfl, db.tags.byKey_eq_none.mp hnone⟩
  next t ht =>
    obtain ⟨hmem, hname⟩ := db.tags.byKey_eq_some.mp ht
    split at h
    next => cases h
    next mid toId hcreate =>
      split at h
      next hto =>
        cases h
        exact .inr ⟨t, hmem, hname, mid, toId, hto, hcreate, rfl⟩
      next => cases h

/-- A merge leaves the rows of the other tags. -/
theorem merge_associations {db : Db} {fromId toId : ℤ} {hto : db.HasTag toId} {name : String}
    (hname : ∀ t ∈ db.tags.rows, t.name = name → t.id ≠ fromId ∧ t.id ≠ toId) :
    (db.merge fromId toId hto).associations name = db.associations name := by
  have hcongr : ∀ r ∈ (db.merge fromId toId hto).docTags.rows,
      ((db.merge fromId toId hto).tags.rows.any fun t => t.id = r.tagId && t.name = name) =
        db.tags.rows.any fun t => t.id = r.tagId && t.name = name := by
    intro r _
    rw [Bool.eq_iff_iff, List.any_eq_true, List.any_eq_true]
    constructor
    · rintro ⟨t, ht, hfound⟩
      exact ⟨t, (mem_merge_tags.mp ht).1, hfound⟩
    · rintro ⟨t, ht, hfound⟩
      have hnamed : t.name = name := by simpa using (Bool.and_eq_true_iff.mp hfound).2
      exact ⟨t, mem_merge_tags.mpr ⟨ht, (hname t ht hnamed).1⟩, hfound⟩
  have hother : ∀ {r : DocTagRow},
      (db.tags.rows.any fun t => t.id = r.tagId && t.name = name) = true →
        r.tagId ≠ fromId ∧ r.tagId ≠ toId := by
    intro r hany
    obtain ⟨t, ht, hfound⟩ := List.any_eq_true.mp hany
    obtain ⟨hid, hnamed⟩ : t.id = r.tagId ∧ t.name = name := by simpa using hfound
    exact hid ▸ hname t ht hnamed
  rw [associations, List.filter_congr hcongr, associations]
  refine Table.filter_rows_congr (fun r hr hany => ?_) (fun r hr hany => ?_)
  · exact ((mem_merge_docTags_of_ne (hother hany).2).mp hr).1
  · exact (mem_merge_docTags_of_ne (hother hany).2).mpr ⟨hr, (hother hany).1⟩

theorem createTag_associations {db db' : Db} {now id : ℤ} {name : String}
    {color description : Option String}
    (h : db.createTag now name color description = (db', .ok id)) {other : String}
    (hne : other ≠ name) : db'.associations other = db.associations other := by
  obtain ⟨-, hdocTags, -, -⟩ := createTag_ok h
  obtain ⟨hkept, hnew⟩ := mem_createTag h
  rw [associations, associations, hdocTags]
  refine List.filter_congr fun r _ => ?_
  rw [Bool.eq_iff_iff, List.any_eq_true, List.any_eq_true]
  constructor
  · rintro ⟨t, ht, hfound⟩
    obtain ⟨-, hnamed⟩ : t.id = r.tagId ∧ t.name = other := by simpa using hfound
    exact ⟨t, (hnew t ht).resolve_right fun heq => hne (hnamed.symm.trans heq), hfound⟩
  · rintro ⟨t, ht, hfound⟩
    exact ⟨t, hkept t ht, hfound⟩

/-- A merge into another tag. -/
theorem merged_of_ne {db mid : Db} {now toId : ℤ} {fromName intoName : String} {t : TagRow}
    (hne : fromName ≠ intoName) (ht : t ∈ db.tags.rows) (hname : t.name = fromName)
    (hto : mid.HasTag toId) (hcreate : db.createTag now intoName none none = (mid, .ok toId)) :
    Merged fromName intoName db (mid.merge t.id toId hto) := by
  obtain ⟨hkept, -⟩ := mem_createTag hcreate
  obtain ⟨⟨u, hu, huname, rfl⟩, -⟩ := createTag_ok hcreate
  have hids : u.id ≠ t.id := by
    intro hid
    obtain rfl := mid.tags.eq_of_id hu (hkept t ht) hid
    exact hne (hname.symm.trans huname)
  constructor
  · intro docId
    have hafter : u ∈ (mid.merge t.id u.id hto).tags.rows := mem_merge_tags.mpr ⟨hu, hids⟩
    calc (mid.merge t.id u.id hto).Tagged docId intoName
      _ ↔ (mid.merge t.id u.id hto).HasDoc u.id docId := huname ▸ tagged_iff_hasDoc hafter
      _ ↔ mid.HasDoc t.id docId ∨ mid.HasDoc u.id docId := merge_hasDoc hids
      _ ↔ mid.Tagged docId fromName ∨ mid.Tagged docId intoName := by
        rw [← hname, ← huname, tagged_iff_hasDoc (hkept t ht), tagged_iff_hasDoc hu]
      _ ↔ db.Tagged docId fromName ∨ db.Tagged docId intoName := by
        rw [createTag_tagged hcreate, createTag_tagged hcreate]
  · intro _ x hx hxname
    obtain ⟨hmem, hid⟩ := mem_merge_tags.mp hx
    exact hid (congrArg TagRow.id (mid.tags.eq_of_key hmem (hkept t ht) (hxname.trans hname.symm)))
  · intro name hfrom hinto
    rw [merge_associations, createTag_associations hcreate hinto]
    intro x hx hxname
    constructor <;> intro hid
    · obtain rfl := mid.tags.eq_of_id hx (hkept t ht) hid
      exact hfrom (hxname.symm.trans hname)
    · obtain rfl := mid.tags.eq_of_id hx hu hid
      exact hinto (hxname.symm.trans huname)

/-- A merge of a tag into itself deletes its documents. -/
theorem merged_self_iff {db mid : Db} {now toId : ℤ} {t : TagRow} (ht : t ∈ db.tags.rows)
    (hto : mid.HasTag toId) (hcreate : db.createTag now t.name none none = (mid, .ok toId)) :
    Merged t.name t.name db (mid.merge t.id toId hto) ↔ ∀ docId, ¬db.Tagged docId t.name := by
  obtain ⟨hkept, -⟩ := mem_createTag hcreate
  obtain ⟨⟨u, hu, huname, rfl⟩, -⟩ := createTag_ok hcreate
  obtain rfl : u = t := mid.tags.eq_of_key hu (hkept t ht) huname
  have hnone : ∀ docId, ¬(mid.merge u.id u.id hto).Tagged docId u.name := by
    rintro docId ⟨x, hx, hxname, -⟩
    obtain ⟨hmem, hid⟩ := mem_merge_tags.mp hx
    exact hid (congrArg TagRow.id (mid.tags.eq_of_key hmem hu hxname))
  constructor
  · intro h docId htagged
    exact hnone docId ((h.union docId).mpr (.inl htagged))
  · intro h
    refine ⟨fun docId => ?_, fun hne => absurd rfl hne, fun name hfrom _ => ?_⟩
    · simp [hnone docId, h docId]
    · rw [merge_associations, createTag_associations hcreate hfrom]
      intro x hx hxname
      have hid : x.id ≠ u.id := by
        intro hid
        obtain rfl := mid.tags.eq_of_id hx hu hid
        exact hfrom hxname.symm
      exact ⟨hid, hid⟩

/-- A merge that succeeds is a union, unless it merges a tag with documents into itself. -/
theorem mergeTags_merged_iff {db db' : Db} {now : ℤ} {fromName intoName : String} {moved : ℕ}
    (h : db.mergeTags now fromName intoName = (db', .ok moved)) :
    Merged fromName intoName db db' ↔
      (fromName = intoName → ∀ docId, ¬db.Tagged docId intoName) := by
  rcases mergeTags_ok h with ⟨rfl, hnone⟩ | ⟨t, ht, rfl, mid, toId, hto, hcreate, rfl⟩
  · have hfrom : ∀ docId, ¬db'.Tagged docId fromName := fun docId ⟨t, ht, hname, _⟩ =>
      hnone t ht hname
    refine iff_of_true ⟨fun docId => ?_, fun _ => hnone, fun _ _ _ => rfl⟩ ?_
    · simp [hfrom docId]
    · rintro rfl docId
      exact hfrom docId
  · by_cases hne : t.name = intoName
    · subst hne
      rw [merged_self_iff ht hto hcreate]
      exact ⟨fun h _ => h, fun h => h rfl⟩
    · exact iff_of_true (merged_of_ne hne ht rfl hto hcreate) fun heq => absurd heq hne

/-- Document `1` has the tag `"rust"`. -/
def oneTagged : Db := (new.tagDoc 5 5 1 "rust" "manual").1

theorem oneTagged_merged :
    Merged "rust" "memory" oneTagged (oneTagged.mergeTags 6 "rust" "memory").1 := by
  have hmerge : oneTagged.mergeTags 6 "rust" "memory" =
      ((oneTagged.mergeTags 6 "rust" "memory").1, .ok 1) := rfl
  exact (mergeTags_merged_iff hmerge).mpr fun h => absurd h (by decide)

/-- The tag loses its document. -/
theorem merge_self_loses_documents :
    (oneTagged.mergeTags 6 "rust" "rust").2 = .ok 0 ∧
      ¬Merged "rust" "rust" oneTagged (oneTagged.mergeTags 6 "rust" "rust").1 := by
  refine ⟨rfl, fun h => ?_⟩
  have hbefore : oneTagged.Tagged 1 "rust" := by
    unfold Tagged
    decide
  have hafter : ¬(oneTagged.mergeTags 6 "rust" "rust").1.Tagged 1 "rust" := by
    unfold Tagged
    decide
  exact hafter ((h.union 1).mpr (.inl hbefore))

end Db

end SynapseMemory.Tags
