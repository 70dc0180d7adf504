import SynapseMemory.Space

/-!
# Drawers are addressable, and deleted ones are hidden

Two laws of the drawers of a space, each with the condition under which the code keeps it.

A drawer that was put should be in the list of its room from then on. The uid of a drawer comes from
a counter that starts at one in each process, so after a restart its uri can be taken, and the put
fails. The store keeps one row for each text, so a text that is in another room already stays there.
`drawers_addressable_iff` says that these two cases, together with an embedding that is not valid
and a room whose pattern is too long, are all: the law holds of a run if and only if none of them
occurs in it.

A drawer that was deleted should not be returned again. The list of a room keeps this
(`drawerList_hides`). The two searches do not look at `meta`, so they return a deleted drawer
whenever the indexes do; `deleted_drawer_hidden` is the law for the runs in which the indexes have
no such answer.
-/

namespace SynapseMemory

namespace Space

open Proto Transition

/-! ## Lists of a room -/

theorem mem_sqlLimit {α : Type} {limit : UInt64} {rows : List α} {x : α}
    (h : x ∈ sqlLimit limit rows) : x ∈ rows :=
  (sqlLimit_sublist limit rows).subset h

theorem mem_sqlOffset {α : Type} {offset : UInt64} {rows : List α} {x : α}
    (h : x ∈ sqlOffset offset rows) : x ∈ rows := by
  rw [sqlOffset] at h
  split at h
  next => exact List.mem_of_mem_drop h
  next => exact h

theorem sqlOffset_zero {α : Type} (rows : List α) : sqlOffset 0 rows = rows := rfl

/-- The limit does not cut a list of this length off. -/
def Sufficient (limit : UInt64) (n : ℕ) : Prop := n ≤ limit.toNat ∨ 2 ^ 63 ≤ limit.toNat

theorem sqlLimit_of_sufficient {α : Type} {limit : UInt64} {rows : List α}
    (h : Sufficient limit rows.length) : sqlLimit limit rows = rows := by
  rw [sqlLimit]
  split
  next hlt =>
    apply List.take_of_length_le
    rcases h with h | h
    · exact h
    · omega
  next => rfl

section Select

variable [FloatText]

theorem mem_selectDrawers {rows : List Doc} {inp : DrawerListInput} {d : Doc}
    (h : d ∈ selectDrawers rows inp) : d ∈ rows ∧ shown inp.wing inp.room d = true :=
  List.mem_filter.mp (List.mem_mergeSort.mp (mem_sqlOffset (mem_sqlLimit h)))

/-- A list from the start that is not cut off has every drawer of the room. -/
theorem mem_selectDrawers_of_sufficient {rows : List Doc} {path wing room : String}
    {limit : UInt64} {d : Doc} (hlimit : Sufficient limit rows.length) (hd : d ∈ rows)
    (hshown : shown wing room d = true) :
    d ∈ selectDrawers rows ⟨path, wing, room, some limit, none⟩ := by
  have hmem : d ∈ (rows.filter (shown wing room)).mergeSort fun a b => b.ts ≤ a.ts :=
    List.mem_mergeSort.mpr (List.mem_filter.mpr ⟨hd, hshown⟩)
  have hlen := List.length_filter_le (shown wing room) rows
  have hlimit : Sufficient limit
      ((rows.filter (shown wing room)).mergeSort fun a b => b.ts ≤ a.ts).length := by
    rw [List.length_mergeSort]
    rcases hlimit with hlimit | hlimit
    · exact .inl (hlen.trans hlimit)
    · exact .inr hlimit
  rw [selectDrawers]
  simp only [Option.getD_some, Option.getD_none]
  rw [sqlOffset_zero, sqlLimit_of_sufficient hlimit]
  exact hmem

end Select

/-! ## What a put does -/

section Run

variable [Blake3]

/-- A put goes through, or leaves the files alone. -/
theorem drawerPut_ok (w : World) (now : ℤ) (inp : DrawerPutInput) :
    (∃ s id, (w.spaces inp.spacePath).put now (drawerRequest w inp) = .ok (s, id) ∧
      drawerPut w now inp =
        (World.write { w with ctr := w.ctr + 1 } inp.spacePath s, .put id (drawerUri w inp))) ∨
    (∃ e, (w.spaces inp.spacePath).put now (drawerRequest w inp) = .error e ∧
      drawerPut w now inp = ({ w with ctr := w.ctr + 1 }, .error (errorText e))) := by
  rw [drawerPut]
  match hput : (w.spaces inp.spacePath).put now (drawerRequest w inp) with
  | .ok (s, id) => exact .inl ⟨s, id, rfl, rfl⟩
  | .error e => exact .inr ⟨e, rfl, rfl⟩

theorem drawerPut_of_ok {w : World} {now : ℤ} {inp : DrawerPutInput} {s : Store} {id : ℤ}
    (h : (w.spaces inp.spacePath).put now (drawerRequest w inp) = .ok (s, id)) :
    drawerPut w now inp =
      (World.write { w with ctr := w.ctr + 1 } inp.spacePath s, .put id (drawerUri w inp)) := by
  rw [drawerPut, h]

variable [FloatText]

/-! ## The list of a room -/

/-- When a list has which rows. -/
theorem drawerList_eq_drawers {w : World} {inp : DrawerListInput} {rows : List DrawerRow} :
    drawerList w inp = .drawers rows ↔
      (Text.len (roomPattern inp.wing inp.room) ≤ maxLikePattern ∨
        (w.spaces inp.spacePath).docs.rows = []) ∧
      rows = (selectDrawers (w.spaces inp.spacePath).docs.rows inp).map
        fun d => ⟨d.id, d.uri, d.title, d.text, d.ts⟩ := by
  unfold drawerList
  simp only
  split
  next h =>
    refine iff_of_false nofun ?_
    rintro ⟨hle | hnil, -⟩
    · exact absurd h.1 (not_lt.mpr hle)
    · exact h.2 hnil
  next h =>
    rw [Response.drawers.injEq, eq_comm, and_iff_right]
    rwa [not_and_or, not_lt, not_not] at h

/-- The list of a room, asked for with a limit that does not cut it off, has a drawer with the
text. -/
def Listed (w : World) (inp : DrawerPutInput) : Prop :=
  ∀ limit, Sufficient limit (w.spaces inp.spacePath).docs.rows.length →
    ∃ rows, drawerList w ⟨inp.spacePath, inp.wingName, inp.roomTopic, some limit, none⟩ =
      .drawers rows ∧ ∃ r ∈ rows, r.text = inp.text

/-- The pattern of the room of a drawer is one that SQLite takes. -/
def PatternFits (inp : DrawerPutInput) : Prop :=
  Text.len (roomPattern inp.wingName inp.roomTopic) ≤ maxLikePattern

/-- A row with the text is shown in the room. -/
def Shows (w : World) (inp : DrawerPutInput) : Prop :=
  ∃ d ∈ (w.spaces inp.spacePath).docs.rows, d.text = inp.text ∧
    shown inp.wingName inp.roomTopic d = true

/-- A drawer is listed if its pattern is not too long and a row with its text is shown. -/
theorem listed_iff {w : World} {inp : DrawerPutInput} :
    Listed w inp ↔ PatternFits inp ∧ Shows w inp := by
  constructor
  · intro h
    obtain ⟨rows, hrows, r, hr, htext⟩ := h 18446744073709551615 (.inr (by decide))
    obtain ⟨hpattern, rfl⟩ := drawerList_eq_drawers.mp hrows
    obtain ⟨d, hd, rfl⟩ := List.mem_map.mp hr
    obtain ⟨hd, hshown⟩ := mem_selectDrawers hd
    exact ⟨hpattern.resolve_right (List.ne_nil_of_mem hd), d, hd, htext, hshown⟩
  · rintro ⟨hfits, d, hd, htext, hshown⟩ limit hlimit
    refine ⟨_, drawerList_eq_drawers.mpr ⟨.inl hfits, rfl⟩, ?_⟩
    exact ⟨_, List.mem_map_of_mem (mem_selectDrawers_of_sufficient hlimit hd hshown), htext⟩

/-! ## Puts that are listed -/

/-- A put of a drawer went through. -/
def Succeeds (w : World) (now : ℤ) (inp : DrawerPutInput) : Prop :=
  ∃ id uri, (drawerPut w now inp).2 = .put id uri

/-- The drawer gets a row in its room: a row with the text is shown there already, or the text and
the uri are new. -/
def Placed (w : World) (inp : DrawerPutInput) : Prop :=
  let s := w.spaces inp.spacePath
  match s.byText inp.text with
  | some d => d.text = inp.text ∧ shown inp.wingName inp.roomTopic d = true
  | none => s.Free (some (drawerUri w inp))

/-- The call puts no drawer that is lost. -/
def Accepted (w : World) (c : Call) : Prop :=
  ∀ now inp, c = .drawerPut now inp →
    Store.checkEmbedding inp.embedding = .ok () ∧ PatternFits inp ∧ Placed w inp

theorem shown_newDoc {w : World} {now : ℤ} {inp : DrawerPutInput} :
    shown inp.wingName inp.roomTopic
      ((w.spaces inp.spacePath).newDoc now (drawerRequest w inp)) = true := by
  have hlike := Agent.like_append_percent (roomUri inp.wingName inp.roomTopic)
    (toString w.ctr.toNat).toList
  simpa [shown, uriLike, softDeleted, Store.newDoc, drawerRequest, drawerUri, roomPattern]
    using hlike

/-- A put goes through and its drawer is shown in its room exactly when it gets a row there. -/
theorem succeeds_and_shows_iff {w : World} {now : ℤ} {inp : DrawerPutInput} :
    Succeeds w now inp ∧ Shows (drawerPut w now inp).1 inp ↔
      Store.checkEmbedding inp.embedding = .ok () ∧ Placed w inp := by
  constructor
  · rintro ⟨⟨id, uri, hput⟩, hshows⟩
    rcases drawerPut_ok w now inp with ⟨s, id, hok, heq⟩ | ⟨e, -, heq⟩
    · obtain ⟨hemb, hrow⟩ := Store.putInner_ok.mp hok
      refine ⟨hemb, ?_⟩
      rw [heq] at hshows
      obtain ⟨d', hd', htext, hshown⟩ := hshows
      rw [World.write_self] at hd'
      rw [Placed]
      rcases Store.findOrInsert_ok hrow with ⟨d, hd, rfl, -⟩ | hnew
      · -- the only row with the text is the one that was found
        have hkey := (Table.byKey_eq_some _).mp hd
        have heq : d' = d := by
          apply Table.eq_of_key _ hd' hkey.1
          rw [hkey.2]
          exact congrArg Blake3.hash htext
        subst heq
        simp only [show Store.byText _ inp.text = some d' from hd]
        exact ⟨htext, hshown⟩
      · simp only [show Store.byText _ inp.text = none from hnew.fresh]
        exact hnew.free
    · rw [heq] at hput
      cases hput
  · rintro ⟨hemb, hplaced⟩
    rw [Placed] at hplaced
    cases hfound : (w.spaces inp.spacePath).byText inp.text with
    | some d =>
      simp only [hfound] at hplaced
      have hok : (w.spaces inp.spacePath).put now (drawerRequest w inp) = .ok (_, d.id) :=
        Store.putInner_ok.mpr ⟨hemb, Store.findOrInsert_of_some hfound⟩
      have heq := drawerPut_of_ok hok
      rw [Succeeds, heq]
      refine ⟨⟨_, _, rfl⟩, d, ?_, hplaced⟩
      rw [World.write_self]
      exact ((Table.byKey_eq_some _).mp hfound).1
    | none =>
      simp only [hfound] at hplaced
      obtain ⟨s, hs⟩ : ∃ s, (w.spaces inp.spacePath).findOrInsert now (drawerRequest w inp) =
          .ok (s, _) := Store.findOrInsert_of_free hfound hplaced
      have hnew := Store.findOrInsert_new hfound hs
      have heq := drawerPut_of_ok (Store.putInner_ok.mpr ⟨hemb, hs⟩)
      rw [Succeeds, heq]
      refine ⟨⟨_, _, rfl⟩, (w.spaces inp.spacePath).newDoc now (drawerRequest w inp), ?_, rfl,
        shown_newDoc⟩
      rw [World.write_self]
      exact hnew.newDoc_mem

variable [SearchEngine]

/-- What each insert and each mark preserves of a file, a call preserves of every file. -/
theorem step_invariant {P : Store → Prop} {w : World} {c : Call} {path : String}
    (hins : ∀ {s now req s' id}, Store.Inserted s now req s' id → P s → P s')
    (hdel : ∀ inp s, c = .drawerDelete inp → P s → P (softDelete s inp.id))
    (h : P (w.spaces path)) : P ((step w c).spaces path) := by
  have hwrite : ∀ (v : World) (other : String) (s : Store), P (v.spaces path) →
      (path = other → P s) → P ((v.write other s).spaces path) := by
    intro v other s hv hs
    by_cases hpath : path = other
    · subst hpath
      rw [World.write_self]
      exact hs rfl
    · rwa [World.write_of_ne _ _ hpath]
  cases c with
  | spaceCreate inp => exact h
  | drawerList inp => exact h
  | spaceSearch inp => exact h
  | wingSearch inp => exact h
  | restart => exact h
  | drawerPut now inp =>
    change P ((drawerPut w now inp).1.spaces path)
    rcases drawerPut_ok w now inp with ⟨s, id, hok, heq⟩ | ⟨e, -, heq⟩
    · rw [heq]
      apply hwrite _ _ _ h
      rintro rfl
      exact Store.putInner_invariant hins hok h
    · rw [heq]
      exact h
  | drawerDelete inp =>
    change P ((drawerDelete w inp).1.spaces path)
    unfold drawerDelete
    simp only
    split
    next =>
      apply hwrite _ _ _ h
      rintro rfl
      exact hdel inp _ rfl h
    next => exact h

/-- Rows stay as they are until a drawer is deleted. -/
theorem mem_rows_step {w : World} {c : Call} {path : String} {d : Doc}
    (hc : ∀ inp, c ≠ .drawerDelete inp) (hd : d ∈ (w.spaces path).docs.rows) :
    d ∈ ((step w c).spaces path).docs.rows := by
  refine step_invariant (P := fun s => d ∈ s.docs.rows) ?_ ?_ hd
  · intro s now req s' id hnew hd
    rw [hnew.rows_eq]
    exact List.mem_append_left _ hd
  · rintro inp s rfl -
    exact absurd rfl (hc inp)

/-- A drawer that is shown stays so, as long as none is deleted. -/
theorem Shows.run {w : World} {inp : DrawerPutInput} {later : List Call}
    (hlater : ∀ c ∈ later, ∀ inp, c ≠ .drawerDelete inp) (h : Shows w inp) :
    Shows (later.foldl step w) inp := by
  induction later generalizing w with
  | nil => exact h
  | cons c later ih =>
    obtain ⟨hc, hlater⟩ := List.forall_mem_cons.mp hlater
    apply ih hlater
    obtain ⟨d, hd, hshown⟩ := h
    exact ⟨d, mem_rows_step hc hd, hshown⟩

/-- The call puts no drawer that is not put, or not listed in its room from then on until drawers
are deleted. -/
def Addressable (w : World) (c : Call) : Prop :=
  ∀ now inp, c = .drawerPut now inp → Succeeds w now inp ∧
    ∀ later : List Call, (∀ c ∈ later, ∀ inp, c ≠ .drawerDelete inp) →
      Listed (later.foldl step (step w c)) inp

/-- When the drawer of a call is put, and listed from then on. -/
theorem addressable_iff {w : World} {c : Call} : Addressable w c ↔ Accepted w c := by
  constructor
  · rintro h now inp rfl
    obtain ⟨hput, hlisted⟩ := h now inp rfl
    obtain ⟨hfits, hshows⟩ := listed_iff.mp (hlisted [] nofun)
    obtain ⟨hemb, hplaced⟩ := succeeds_and_shows_iff.mp ⟨hput, hshows⟩
    exact ⟨hemb, hfits, hplaced⟩
  · rintro h now inp rfl
    obtain ⟨hemb, hfits, hplaced⟩ := h now inp rfl
    obtain ⟨hput, hshows⟩ : Succeeds w now inp ∧ Shows (drawerPut w now inp).1 inp :=
      succeeds_and_shows_iff.mpr ⟨hemb, hplaced⟩
    exact ⟨hput, fun later hlater => listed_iff.mpr ⟨hfits, hshows.run hlater⟩⟩

end Run

/-- A drawer in one process, and another drawer in the next one. -/
def restartAndPut : List Call :=
  [.drawerPut 0 ⟨"db", "alice", "notes", "first", none⟩, .restart,
    .drawerPut 0 ⟨"db", "alice", "notes", "second", none⟩]

theorem mem_setField (fields : List (String × Json)) (key : String) (v : Json) :
    (key, v) ∈ setField fields key v := by
  rw [setField]
  split
  next h =>
    obtain ⟨f, hf, hkey⟩ := List.any_eq_true.mp h
    exact List.mem_map.mpr ⟨f, hf, if_pos (of_decide_eq_true hkey)⟩
  next => exact List.mem_append_right _ (List.mem_singleton_self _)

section Hits

variable [Blake3] [SearchEngine]

/-- A hit of a search is a row that an index answered with. -/
theorem mem_search {s : Store} {query : String} {embedding : Option (List F32)} {limit : ℕ}
    {hits : List DrawerHit} {h : DrawerHit}
    (hok : search s query embedding limit = .ok hits) (hmem : h ∈ hits) :
    let k := Store.depth (if embedding.isSome then SearchMode.hybrid else .lex) limit
    (s.FindsLex query.toList k h.id ∨ ∃ e ∈ embedding, s.FindsVec e k h.id) ∧
      ∃ d ∈ s.docs.rows, d.id = h.id := by
  obtain ⟨found, hfound, hok⟩ := bind_eq_ok.mp hok
  cases hok
  obtain ⟨h', hh', rfl⟩ := List.mem_map.mp hmem
  obtain ⟨hfind, d, hd, score, rfl⟩ := Store.mem_search hfound hh'
  exact ⟨hfind, d, hd, rfl⟩

end Hits

section Hide

variable [FloatText]

/-- What the patch writes is in the text of the `meta`. -/
theorem softDeleted_markDeleted {d : Doc} : softDeleted (markDeleted d.id d) = true := by
  obtain ⟨before, rest, htext⟩ := Json.exists_append_renderField
    (mem_setField (objectFields (d.meta_.getD (.obj []))) "deleted" (.bool true))
  have hone : Json.renderField ("deleted", .bool true) = deletedText := by
    simp only [Json.renderField, Json.render]
    decide
  have hlike := Agent.like_of_infix deletedText (Json.leftBrace :: before)
    (rest ++ [Json.rightBrace])
  simp only [softDeleted, markDeleted, if_true, patchDeleted, Json.render, htext, hone]
  simpa using hlike

/-- A mark stays. -/
theorem softDeleted_markDeleted_of {d : Doc} (id : ℤ) (h : softDeleted d = true) :
    softDeleted (markDeleted id d) = true := by
  by_cases hid : d.id = id
  · subst hid
    exact softDeleted_markDeleted
  · rwa [markDeleted, if_neg hid]

variable [Blake3]

/-- The id is of a row that was marked. -/
def Marked (s : Store) (id : ℤ) : Prop :=
  id ≤ s.docs.seq ∧ ∀ d ∈ s.docs.rows, d.id = id → softDeleted d = true

/-- A mark stays when a document is inserted. -/
theorem Marked.inserted {s s' : Store} {now id new : ℤ} {req : PutRequest}
    (hnew : Store.Inserted s now req s' new) (h : Marked s id) : Marked s' id := by
  obtain ⟨hle, hrows⟩ := h
  constructor
  · rw [hnew.seq_eq]
    omega
  · intro d hd hid
    rw [hnew.rows_eq] at hd
    rcases List.mem_append.mp hd with hd | hd
    · exact hrows d hd hid
    · -- a new row has an id that was never given out
      obtain rfl := List.mem_singleton.mp hd
      have : s.docs.seq + 1 = id := hid
      omega

theorem Marked.softDelete {s : Store} {id : ℤ} (h : Marked s id) (other : ℤ) :
    Marked (softDelete s other) id := by
  refine ⟨h.1, ?_⟩
  intro d hd hid
  obtain ⟨x, hx, rfl⟩ := List.mem_map.mp hd
  rw [markDeleted_id] at hid
  exact softDeleted_markDeleted_of other (h.2 x hx hid)

/-- A delete that went through marks the row. -/
theorem marked_of_deleted {w : World} {inp : DrawerDeleteInput} {id : ℤ}
    (h : (drawerDelete w inp).2 = .deleted id) :
    Marked ((drawerDelete w inp).1.spaces inp.spacePath) inp.id := by
  unfold drawerDelete at h ⊢
  simp only at h ⊢
  split at h
  next hany =>
    obtain ⟨r, hr, hid⟩ := List.any_eq_true.mp hany
    rw [if_pos hany, World.write_self]
    constructor
    · rw [← of_decide_eq_true hid]
      exact (w.spaces inp.spacePath).docs.le_seq r hr
    · intro d hd hid
      obtain ⟨x, hx, rfl⟩ := List.mem_map.mp hd
      rw [markDeleted_id] at hid
      rw [← hid]
      exact softDeleted_markDeleted
  next => cases h

/-- The list of a room leaves out what is marked. -/
theorem drawerList_hides {w : World} {inp : DrawerListInput} {id : ℤ}
    (h : Marked (w.spaces inp.spacePath) id) : id ∉ (drawerList w inp).ids := by
  unfold drawerList
  simp only
  split
  next => exact List.not_mem_nil
  next =>
    intro hmem
    obtain ⟨r, hr, rfl⟩ := List.mem_map.mp hmem
    obtain ⟨d, hd, rfl⟩ := List.mem_map.mp hr
    obtain ⟨hd, hshown⟩ := mem_selectDrawers hd
    have hmark := h.2 d hd rfl
    simp [shown, hmark] at hshown

variable [SearchEngine]

theorem Marked.run {w : World} {path : String} {id : ℤ} (h : Marked (w.spaces path) id)
    (calls : List Call) : Marked ((calls.foldl step w).spaces path) id := by
  induction calls generalizing w with
  | nil => exact h
  | cons c calls ih =>
    apply ih
    exact step_invariant Marked.inserted (fun inp s _ hs => hs.softDelete inp.id) h

/-- The indexes do not answer the call with a row that was marked. -/
def AvoidsDeleted (w : World) : Call → Prop
  | .spaceSearch inp =>
    let s := w.spaces inp.spacePath
    let mode := if inp.embedding.isSome then SearchMode.hybrid else .lex
    let k := Store.depth mode (inp.limit.getD 10).toNat
    ∀ d ∈ s.docs.rows, softDeleted d = true →
      ¬s.FindsLex inp.query.toList k d.id ∧ ∀ e ∈ inp.embedding, ¬s.FindsVec e k d.id
  | .wingSearch inp =>
    let s := w.spaces inp.spacePath
    ∀ d ∈ s.docs.rows, softDeleted d = true → uriLike (wingPattern inp.wing) d = true →
      ¬s.FindsLex inp.query.toList (inp.k.getD 10 * 4).toNat d.id
  | _ => True

/-- A search that avoids deleted drawers does not return a marked one. -/
theorem spaceSearch_hides {w : World} {inp : SpaceSearchInput} {id : ℤ}
    (h : Marked (w.spaces inp.spacePath) id) (havoids : AvoidsDeleted w (.spaceSearch inp)) :
    id ∉ (spaceSearch w inp).ids := by
  rw [spaceSearch]
  split
  next hits hok =>
    intro hmem
    obtain ⟨hit, hhit, rfl⟩ := List.mem_map.mp hmem
    obtain ⟨hfind, d, hd, hid⟩ := mem_search hok hhit
    obtain ⟨hlex, hvec⟩ := havoids d hd (h.2 d hd hid)
    rw [hid] at hlex hvec
    rcases hfind with hfind | ⟨e, he, hfind⟩
    · exact hlex hfind
    · exact hvec e he hfind
  next => exact List.not_mem_nil

/-- Neither does a search in a wing. -/
theorem wingSearch_hides {w : World} {inp : WingSearchInput} {id : ℤ}
    (h : Marked (w.spaces inp.spacePath) id) (havoids : AvoidsDeleted w (.wingSearch inp)) :
    id ∉ (wingSearch w inp).ids := by
  unfold wingSearch
  simp only
  split
  next hits hok =>
    intro hmem
    obtain ⟨hit, hhit, rfl⟩ := List.mem_map.mp hmem
    obtain ⟨hhit, hwing⟩ := List.mem_filter.mp (List.mem_of_mem_take hhit)
    obtain ⟨-, hany⟩ := Bool.and_eq_true_iff.mp hwing
    obtain ⟨d, hd, hrow⟩ := List.any_eq_true.mp hany
    obtain ⟨hid, huri⟩ := Bool.and_eq_true_iff.mp hrow
    have hid := of_decide_eq_true hid
    apply havoids d hd (h.2 d hd hid) huri
    obtain ⟨hfind, -⟩ := mem_search hok hhit
    rcases hfind with hfind | ⟨e, he, -⟩
    · rwa [hid]
    · cases he
  next => exact List.not_mem_nil

/-- The file a call reads drawers from. -/
def Call.reads : Call → Option String
  | .drawerList inp => some inp.spacePath
  | .spaceSearch inp => some inp.spacePath
  | .wingSearch inp => some inp.spacePath
  | _ => none

/-- A call that meets the condition does not return what is marked in its file. -/
theorem Marked.not_returned {w : World} {c : Call} {path : String} {id : ℤ}
    (h : Marked (w.spaces path) id) (hreads : c.reads = some path) (havoids : AvoidsDeleted w c) :
    id ∉ (respond w c).2.ids := by
  cases c with
  | drawerList inp =>
    cases hreads
    simp only [respond]
    exact drawerList_hides h
  | spaceSearch inp =>
    cases hreads
    simp only [respond]
    exact spaceSearch_hides h havoids
  | wingSearch inp =>
    cases hreads
    simp only [respond]
    exact wingSearch_hides h havoids
  | spaceCreate inp => cases hreads
  | drawerPut now inp => cases hreads
  | drawerDelete inp => cases hreads
  | restart => cases hreads

/-- In every run in which the indexes never answer a search with a deleted drawer, a drawer whose
deletion has succeeded is not returned by any later list or search of its space. -/
theorem deleted_drawer_hidden (before after : List Call) (inp : DrawerDeleteInput) (read : Call)
    (hmeets : Meets (fun w c => some (step w c)) AvoidsDeleted World.new
      (before ++ .drawerDelete inp :: after ++ [read]))
    (hdeleted : (respond (before.foldl step World.new) (.drawerDelete inp)).2 = .deleted inp.id)
    (hreads : read.reads = some inp.spacePath) :
    inp.id ∉
      (respond ((before ++ .drawerDelete inp :: after).foldl step World.new) read).2.ids := by
  have hrun := run_total step World.new (before ++ .drawerDelete inp :: after)
  have hlast := (hmeets.of_append hrun).1
  apply Marked.not_returned _ hreads hlast
  rw [List.foldl_append, List.foldl_cons]
  exact (marked_of_deleted hdeleted).run after

end Hide

/-- A drawer and its deletion. -/
def putAndSoftDelete : List Call :=
  [.drawerPut 0 ⟨"db", "alice", "notes", "rust", none⟩, .drawerDelete ⟨"db", 1⟩]

/-- A search for another word does not find it. -/
theorem putAndSoftDelete_hidden :
    let _ := Blake3.identity
    let _ := FloatText.zero
    let _ := SearchEngine.scan
    1 ∉ (respond (putAndSoftDelete.foldl step World.new)
      (.spaceSearch ⟨"db", "lean", none, none⟩)).2.ids := by
  intro _ _ _
  have hlast : AvoidsDeleted (putAndSoftDelete.foldl step World.new)
      (.spaceSearch ⟨"db", "lean", none, none⟩) := by
    intro d hd hmark
    refine ⟨?_, nofun⟩
    rintro ⟨query, found, score, hquery, hfound, hmem⟩
    have hword : Search.fts5MatchQuery "lean".toList = some "lean".toList := by decide
    have hnone : SearchEngine.scan.lexical
        ((putAndSoftDelete.foldl step World.new).spaces "db").fts "lean".toList 10 = .ok [] := by
      decide
    obtain rfl := Option.some.inj (hword.symm.trans hquery)
    obtain rfl := Except.ok.inj (hnone.symm.trans hfound)
    cases hmem
  apply deleted_drawer_hidden [.drawerPut 0 ⟨"db", "alice", "notes", "rust", none⟩] [] ⟨"db", 1⟩
    (.spaceSearch ⟨"db", "lean", none, none⟩)
  · exact meets_total_cons.mpr ⟨trivial, meets_total_cons.mpr ⟨trivial,
      meets_total_cons.mpr ⟨hlast, trivial⟩⟩⟩
  · decide
  · rfl

/-- The drawer is found after its deletion. -/
theorem putAndSoftDelete_returned :
    let _ := Blake3.identity
    let _ := FloatText.zero
    let _ := SearchEngine.scan
    let w := putAndSoftDelete.foldl step World.new
    (respond (step World.new (.drawerPut 0 ⟨"db", "alice", "notes", "rust", none⟩))
      (.drawerDelete ⟨"db", 1⟩)).2 = .deleted 1 ∧
    1 ∈ (respond w (.spaceSearch ⟨"db", "rust", none, none⟩)).2.ids := by
  decide

end Space

end SynapseMemory
