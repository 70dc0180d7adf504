import SynapseMemory.SynxIo

/-!
# Export and import of text files

`export` and `import` both take `.csv`, `.tsv`, `.jsonl` and `.json`. This is about a store that is
exported to such a file, and a file that is imported into a store without documents.

What comes back is what the rows of the file say. Each format is one function from a document to the
request its row becomes, and the rest is the same for all (`roundTrips_iff_of_rows`): the import
ends well, since texts and uris are as unique in the file as they were in the store, and the
documents are the same if and only if each request says the same as its document.

* In a delimited file an absent title and an empty one look alike, and a row without a text is
  skipped.
* In a line of JSON an absent `meta` is written as `null`, and read as a `meta` that is `null`.
* A `.json` file is written as lines of JSON, but read as one value. So it can be read only if there
  is exactly one document.
-/

namespace SynapseMemory

namespace Text

/-- A line at the beginning of a text. -/
theorem lines_append_newline {l rest : Text} (h : '\n' ∉ l) :
    lines (l ++ '\n' :: rest) = stripCr l :: lines rest := by
  have hsplit : (l ++ '\n' :: rest).splitOnP (· == '\n') = l :: rest.splitOnP (· == '\n') := by
    apply List.splitOnP_append_cons_of_forall_mem
    · intro c hc
      exact beq_false_of_ne fun heq => h (heq ▸ hc)
    · rfl
  have hne := List.splitOnP_ne_nil (· == '\n') rest
  rw [lines]
  simp only [hsplit]
  rw [List.dropLast_cons_of_ne_nil hne, List.getLast?_cons_of_ne_nil hne]
  rfl

/-- The lines of a text that was written line by line. -/
theorem lines_flatMap {α : Type} {f : α → Text} {l : List α} (hnewline : ∀ x ∈ l, '\n' ∉ f x)
    (hcr : ∀ x ∈ l, stripCr (f x) = f x) :
    lines (l.flatMap fun x => f x ++ ['\n']) = l.map f := by
  induction l with
  | nil => rfl
  | cons x l ih =>
    rw [List.forall_mem_cons] at hnewline hcr
    rw [List.flatMap_cons, List.append_assoc, List.singleton_append,
      lines_append_newline hnewline.1, hcr.1, ih hnewline.2 hcr.2, List.map_cons]

end Text

namespace SynxIo

open Proto

/-! ## Lists -/

/-- What a function leaves out does not disturb the order of the rest. -/
theorem filterMap_sublist_filterMap {α β : Type} {f g : α → Option β} {l : List α}
    (h : ∀ x ∈ l, ∀ b, f x = some b → g x = some b) : (l.filterMap f).Sublist (l.filterMap g) := by
  induction l with
  | nil => exact List.Sublist.refl _
  | cons x l ih =>
    rw [List.forall_mem_cons] at h
    have ih := ih h.2
    cases hf : f x with
    | some b =>
      rw [List.filterMap_cons_some hf, List.filterMap_cons_some (h.1 b hf)]
      exact ih.cons_cons b
    | none =>
      rw [List.filterMap_cons_none hf]
      cases hg : g x with
      | some b =>
        rw [List.filterMap_cons_some hg]
        exact ih.cons b
      | none =>
        rw [List.filterMap_cons_none hg]
        exact ih

/-- A list that may leave elements out has as many elements as another only if it leaves none
out. -/
theorem map_filterMap_eq_map {α β γ : Type} {f : α → Option β} {g : β → γ} {k : α → γ}
    {l : List α} :
    (l.filterMap f).map g = l.map k ↔ ∀ x ∈ l, (f x).map g = some (k x) := by
  induction l with
  | nil => simp
  | cons x l ih =>
    rw [List.forall_mem_cons]
    cases hf : f x with
    | some b =>
      rw [List.filterMap_cons_some hf, List.map_cons, List.map_cons, List.cons.injEq, ih]
      simp
    | none =>
      rw [List.filterMap_cons_none hf, List.map_cons]
      constructor
      · intro heq
        have hlen := congrArg List.length heq
        have hle := List.length_filterMap_le f l
        rw [List.length_map, List.length_cons, List.length_map] at hlen
        omega
      · rintro ⟨hnone, -⟩
        cases hnone

/-! ## An import that ends well -/

section Loop

variable [Blake3]

/-- The uris that are stored, and those that are put. -/
def allUris (s : Store) (reqs : List PutRequest) : List String :=
  s.docs.rows.filterMap Doc.uri ++ reqs.filterMap PutRequest.uri

/-- A uri that was not there yet is free. -/
theorem free_of_nodup {s : Store} {req : PutRequest} {rest : List PutRequest}
    (huris : (allUris s (req :: rest)).Nodup) (hroom : s.docs.seq < maxRowid) : s.Free req.uri := by
  refine ⟨hroom, ?_⟩
  rintro ⟨hne, d, hd, heq⟩
  obtain ⟨u, hu⟩ := Option.ne_none_iff_exists'.mp hne
  have hdoc : u ∈ s.docs.rows.filterMap Doc.uri :=
    List.mem_filterMap.mpr ⟨d, hd, heq.trans hu⟩
  have hreq : u ∈ (req :: rest).filterMap PutRequest.uri :=
    List.mem_filterMap.mpr ⟨req, List.mem_cons_self, hu⟩
  exact (List.nodup_append.mp huris).2.2 u hdoc u hreq rfl

/-- A text that was not there yet is new. -/
theorem byText_of_nodup {s : Store} {req : PutRequest} {rest : List PutRequest}
    (htexts : (textHashes s (req :: rest)).Nodup) : s.byText req.text = none := by
  cases hkey : s.byText req.text with
  | none => rfl
  | some d => exact absurd htexts (not_nodup_of_byText hkey)

theorem allUris_inserted {s s' : Store} {now id : ℤ} {req : PutRequest}
    (h : Store.Inserted s now req s' id) (rest : List PutRequest) :
    allUris s' rest = allUris s (req :: rest) := by
  have hnew : [s.newDoc now req].filterMap Doc.uri = [req].filterMap PutRequest.uri := by
    simp only [List.filterMap_cons, List.filterMap_nil]
    rfl
  have hcons : req :: rest = [req] ++ rest := rfl
  rw [allUris, allUris, h.rows_eq, hcons, List.filterMap_append, List.filterMap_append, hnew,
    List.append_assoc]

/-- Requests with texts and uris that are new and different from each other can all be put. -/
theorem importRows_isOk {α : Type} {f : α → Option PutRequest} {clock : ℕ → ℤ} {l : List α}
    (hemb : ∀ x req, f x = some req → req.embedding = none) (s : Store) (n : ℕ)
    (htexts : (textHashes s (l.filterMap f)).Nodup) (huris : (allUris s (l.filterMap f)).Nodup)
    (hroom : s.docs.seq + (l.filterMap f).length ≤ maxRowid) :
    ∃ s' n', importRows clock s n (l.map fun x => .ok (f x)) = .ok (s', n') := by
  induction l generalizing s n with
  | nil => exact ⟨s, n, rfl⟩
  | cons x l ih =>
    cases hf : f x with
    | none =>
      rw [List.filterMap_cons_none hf] at htexts huris hroom
      obtain ⟨s', n', hrest⟩ := ih s n htexts huris hroom
      refine ⟨s', n', bind_eq_ok.mpr ⟨none, congrArg Except.ok hf, hrest⟩⟩
    | some req =>
      rw [List.filterMap_cons_some hf] at htexts huris hroom
      rw [List.length_cons] at hroom
      push_cast at hroom
      have hseq : s.docs.seq < maxRowid := by omega
      obtain ⟨t, hput⟩ : ∃ t, s.findOrInsert (clock n) req = .ok (t, s.docs.seq + 1) :=
        Store.findOrInsert_of_free (byText_of_nodup htexts) (free_of_nodup huris hseq)
      have hins := Store.findOrInsert_new (byText_of_nodup htexts) hput
      have hcheck : Store.checkEmbedding req.embedding = .ok () := by
        rw [hemb x req hf]
        rfl
      have hput : (s.put (clock n) req).mapError ImportError.store = .ok (t, s.docs.seq + 1) :=
        mapError_eq_ok.mpr (Store.putInner_ok.mpr ⟨hcheck, hput⟩)
      rw [← textHashes_inserted hins] at htexts
      rw [← allUris_inserted hins] at huris
      have hroom : t.docs.seq + (l.filterMap f).length ≤ maxRowid := by
        rw [hins.seq_eq]
        omega
      obtain ⟨s', n', hrest⟩ := ih t (n + 1) htexts huris hroom
      exact ⟨s', n', bind_eq_ok.mpr ⟨some req, congrArg Except.ok hf,
        bind_eq_ok.mpr ⟨(t, s.docs.seq + 1), hput, hrest⟩⟩⟩

end Loop

/-! ## Round trips -/

/-- What is compared after a round trip: in delimited files there is no `meta`. -/
def view (fmt : Format) (x : Fields) : Fields :=
  if fmt = .jsonl ∨ fmt = .json then x else { x with meta_ := none }

/-- What a row of a file may change of a document: it keeps the text, and it may drop the uri. -/
structure RowOf (f : Doc → Option PutRequest) : Prop where
  text_eq : ∀ d req, f d = some req → req.text = d.text
  uri_eq : ∀ d req u, f d = some req → req.uri = some u → d.uri = some u
  embedding_eq : ∀ d req, f d = some req → req.embedding = none

theorem requests_map {α : Type} (f : α → Option PutRequest) (l : List α) :
    requests (l.map fun x => .ok (f x)) = l.filterMap f := by
  rw [requests, List.filterMap_map]
  rfl

section RoundTrip

variable [Blake3]

/-- The texts of the rows are as different as those of the documents. -/
theorem textHashes_nodup {f : Doc → Option PutRequest} (hf : RowOf f) (s : Store) {t : Store}
    (hempty : t.docs.rows = []) : (textHashes t (s.docs.rows.filterMap f)).Nodup := by
  have hsub : ((s.docs.rows.filterMap f).map fun req => Blake3.hash req.text).Sublist
      (s.docs.rows.map fun d => Blake3.hash d.text) := by
    rw [List.map_filterMap, ← List.filterMap_eq_map]
    apply filterMap_sublist_filterMap
    intro d _ b hb
    obtain ⟨req, hreq, rfl⟩ := Option.map_eq_some_iff.mp hb
    rw [Function.comp, hf.text_eq d req hreq]
  rw [textHashes, hempty]
  exact s.docs.key_nodup.sublist hsub

/-- The uris of the rows are as different as those of the documents. -/
theorem allUris_nodup {f : Doc → Option PutRequest} (hf : RowOf f) (s : Store) {t : Store}
    (hempty : t.docs.rows = []) : (allUris t (s.docs.rows.filterMap f)).Nodup := by
  have hsub : ((s.docs.rows.filterMap f).filterMap PutRequest.uri).Sublist
      (s.docs.rows.filterMap Doc.uri) := by
    rw [List.filterMap_filterMap]
    apply filterMap_sublist_filterMap
    intro d _ u hu
    obtain ⟨req, hreq, hu⟩ := Option.bind_eq_some_iff.mp hu
    exact hf.uri_eq d req u hreq hu
  rw [allUris, hempty]
  exact s.docs.alt_nodup.sublist hsub

variable [FloatText] [F : FileLibs]

/-- A store is exported, and the file imported: the documents come back in their order. -/
def RoundTrips (ce ci : Call) (fmt : Format) (s t : Store) : Prop :=
  ∃ file m t' n, exportFile ce s = .ok (file, m) ∧ importFile ci file t = .ok (t', n) ∧
    (t'.docs.rows.map fun d => view fmt (docFields d)) =
      s.docs.rows.map fun d => view fmt (docFields d)

/-- The rows of a file decide whether the documents come back. -/
theorem roundTrips_iff_of_rows {ce ci : Call} {fmt : Format} {s t : Store} {file : File} {m : ℕ}
    {f : Doc → Option PutRequest} (hf : RowOf f) (hempty : t.docs.rows = [])
    (hexp : exportFile ce s = .ok (file, m))
    (himp : importFile ci file t = fileRows fmt file >>= importRows ci.clock t 0)
    (hrows : fileRows fmt file = .ok (s.docs.rows.map fun d => .ok (f d))) :
    RoundTrips ce ci fmt s t ↔
      (∀ d ∈ s.docs.rows, (f d).map (fun req => view fmt (reqFields req)) =
        some (view fmt (docFields d))) ∧
      t.docs.seq + s.docs.rows.length ≤ maxRowid := by
  have htexts := textHashes_nodup hf s hempty
  have himp : importFile ci file t =
      importRows ci.clock t 0 (s.docs.rows.map fun d => .ok (f d)) := by
    rw [himp, hrows]
    rfl
  -- what is in the store after an import that ended well
  have hresult : ∀ {t' n}, importFile ci file t = .ok (t', n) →
      t'.docs.seq = t.docs.seq + (s.docs.rows.filterMap f).length ∧
      (t'.docs.rows.map fun d => view fmt (docFields d)) =
        (s.docs.rows.filterMap f).map fun req => view fmt (reqFields req) := by
    intro t' n hok
    have himported := importRows_ok (himp ▸ hok)
    rw [requests_map] at himported
    refine ⟨himported.seq_eq htexts, ?_⟩
    have hrows := congrArg (List.map (view fmt)) (himported.rows_eq htexts)
    rw [hempty, List.map_nil, List.nil_append, List.map_map, List.map_map] at hrows
    exact hrows
  constructor
  · rintro ⟨file', m', t', n, hexp', hok, hsame⟩
    obtain ⟨rfl, -⟩ := Prod.mk.inj (Except.ok.inj (hexp.symm.trans hexp'))
    obtain ⟨hseq, hviews⟩ := hresult hok
    have hall := hviews.symm.trans hsame
    refine ⟨map_filterMap_eq_map.mp hall, ?_⟩
    have hlen := congrArg List.length hall
    rw [List.length_map, List.length_map] at hlen
    rw [← hlen, ← hseq]
    exact t'.seq_le
  · rintro ⟨hall, hroom⟩
    have hle := List.length_filterMap_le f s.docs.rows
    obtain ⟨t', n, hok⟩ : ∃ t' n, importRows ci.clock t 0
        (s.docs.rows.map fun d => .ok (f d)) = .ok (t', n) := by
      apply importRows_isOk hf.embedding_eq t 0 htexts (allUris_nodup hf s hempty)
      omega
    have hok := himp.trans hok
    exact ⟨file, m, t', n, hexp, hok, (hresult hok).2.trans (map_filterMap_eq_map.mpr hall)⟩

end RoundTrip

/-! ## Delimited files -/

/-- The request that a record becomes. -/
def dsvRequest (d : Doc) : Option PutRequest :=
  if d.text = "" then none
  else some ⟨d.uri.filter (· ≠ ""), d.title.filter (· ≠ ""), d.text, none, none⟩

theorem dsvRequest_rowOf : RowOf dsvRequest := by
  have hcases : ∀ d req, dsvRequest d = some req →
      req = ⟨d.uri.filter (· ≠ ""), d.title.filter (· ≠ ""), d.text, none, none⟩ := by
    intro d req h
    rw [dsvRequest] at h
    split at h
    next => cases h
    next => exact (Option.some.inj h).symm
  refine ⟨?_, ?_, ?_⟩
  · intro d req h
    rw [hcases d req h]
  · intro d req u h hu
    rw [hcases d req h] at hu
    exact (Option.filter_eq_some_iff.mp hu).1
  · intro d req h
    rw [hcases d req h]

/-- A field is empty in the file if it is absent. -/
theorem filter_getD (t : Option String) :
    (some (t.getD "")).filter (· ≠ "") = t.filter (· ≠ "") := by
  cases t with
  | none => rfl
  | some t => rfl

/-- The fields that come back from a record are the same, if none of them is empty. -/
theorem dsvRequest_view {fmt : Format} (hfmt : fmt ≠ .jsonl ∧ fmt ≠ .json) (d : Doc) :
    (dsvRequest d).map (fun req => view fmt (reqFields req)) = some (view fmt (docFields d)) ↔
      d.text ≠ "" ∧ d.title ≠ some "" ∧ d.uri ≠ some "" := by
  have hnone : ∀ t : Option String, t.filter (· ≠ "") = t ↔ t ≠ some "" := by
    intro t
    cases t with
    | none => simp
    | some t => simp [Option.filter_some]
  rw [dsvRequest]
  split
  next h => simp [h]
  next h =>
    rw [Option.map_some, Option.some.injEq]
    simp only [view, reqFields, docFields, hfmt.1, hfmt.2, or_self, if_false, Fields.mk.injEq,
      hnone]
    tauto

section Dsv

variable [Blake3] [F : FileLibs]

theorem dsvRow_record (d : Doc) : dsvRow dsvHeader 3 (.ok (dsvRecord d)) = .ok (dsvRequest d) := by
  rw [dsvRequest]
  split
  next h =>
    simp only [dsvRow, dsvRecord, h]
    rfl
  next h =>
    have hcols : findColumn dsvHeader "title" = some 1 ∧ findColumn dsvHeader "uri" = some 2 ∧
        findColumn dsvHeader "meta" = none := by decide
    obtain ⟨htitle, huri, hmeta⟩ := hcols
    rw [← filter_getD, ← filter_getD d.title]
    simp only [dsvRow, htitle, huri, hmeta]
    exact if_neg h

/-- The CSV library reads back the records of a store. -/
def CsvReadsBack (s : Store) : Prop :=
  ∀ delimiter ∈ [',', '\t'], F.csvRead delimiter
      (F.csvWrite delimiter (dsvHeader :: s.docs.rows.map dsvRecord)) =
    (.ok dsvHeader, s.docs.rows.map fun d => .ok (dsvRecord d))

theorem dsvRows_export {s : Store} (h : CsvReadsBack s) {delimiter : Char}
    (hdelimiter : delimiter ∈ [',', '\t']) :
    dsvRows delimiter (.text (F.csvWrite delimiter (dsvHeader :: s.docs.rows.map dsvRecord))) =
      .ok (s.docs.rows.map fun d => .ok (dsvRequest d)) := by
  have htext : findColumn dsvHeader "text" = some 3 := by decide
  have hrows : (s.docs.rows.map fun d => Except.ok (dsvRecord d)).map (dsvRow dsvHeader 3) =
      s.docs.rows.map fun d => .ok (dsvRequest d) := by
    rw [List.map_map]
    exact List.map_congr_left fun d _ => dsvRow_record d
  refine bind_eq_ok.mpr ⟨_, rfl, ?_⟩
  rw [h delimiter hdelimiter]
  refine bind_eq_ok.mpr ⟨dsvHeader, rfl, ?_⟩
  rw [htext]
  exact congrArg Except.ok hrows

end Dsv

/-! ## Lines of JSON -/

/-- The request that a line becomes. -/
def jsonRequest (d : Doc) : PutRequest := ⟨d.uri, d.title, d.text, some (d.meta_.getD .null), none⟩

theorem jsonRequest_rowOf : RowOf fun d => some (jsonRequest d) where
  text_eq d req h := by
    obtain rfl := Option.some.inj h
    rfl
  uri_eq d req u h hu := by
    obtain rfl := Option.some.inj h
    exact hu
  embedding_eq d req h := by
    obtain rfl := Option.some.inj h
    rfl

/-- The fields that come back from a line are the same, if there is a `meta`. -/
theorem jsonRequest_view {fmt : Format} (hfmt : fmt = .jsonl ∨ fmt = .json) (d : Doc) :
    (some (jsonRequest d)).map (fun req => view fmt (reqFields req)) =
      some (view fmt (docFields d)) ↔ d.meta_ ≠ none := by
  rw [Option.map_some, Option.some.injEq, view, view, if_pos hfmt, if_pos hfmt]
  simp only [jsonRequest, reqFields, docFields, Fields.mk.injEq, true_and]
  cases d.meta_ with
  | none => simp
  | some v => simp

theorem asStr_optJson (t : Option String) : Json.asStr (optJson t) = t := by
  cases t with
  | none => rfl
  | some t => rfl

theorem jsonToPut_exportValue (d : Doc) : jsonToPut (exportValue d) = .ok (jsonRequest d) := by
  have htext : ((exportValue d).get "text").bind Json.asStr = some d.text := rfl
  have huri : ((exportValue d).get "uri").bind Json.asStr = d.uri := asStr_optJson d.uri
  have htitle : ((exportValue d).get "title").bind Json.asStr = d.title := asStr_optJson d.title
  have hmeta : (exportValue d).get "meta" = some (d.meta_.getD .null) := rfl
  unfold jsonToPut
  split
  next => rw [htext, huri, htitle, hmeta]; rfl
  next h => exact absurd rfl (h _)

theorem fromStr_eq_ok [Blake3] [F : FileLibs] {t : Text} {v : Json} :
    fromStr t = .ok v ↔ ∃ rest, F.jsonValue t = .ok (v, rest) ∧ rest.all isJsonSpace = true := by
  constructor
  · intro h
    obtain ⟨⟨w, rest⟩, hread, h⟩ := bind_eq_ok.mp h
    simp only at h
    split at h
    next hspace =>
      cases h
      exact ⟨rest, mapError_eq_ok.mp hread, hspace⟩
    next => cases h
  · rintro ⟨rest, hread, hspace⟩
    exact bind_eq_ok.mpr ⟨(v, rest), mapError_eq_ok.mpr hread, if_pos hspace⟩

section Jsonl

variable [FloatText]

/-- An object begins and ends with its braces. -/
theorem render_obj (fields : List (String × Json)) :
    Json.render (.obj fields) = Json.leftBrace ::
    (Json.renderFields fields ++ [Json.rightBrace]) := by
  simp only [Json.render, List.cons_append]

theorem stripCr_render_obj (fields : List (String × Json)) :
    Text.stripCr (Json.render (.obj fields)) = Json.render (.obj fields) := by
  rw [Text.stripCr]
  rw [render_obj, ← List.cons_append, List.getLast?_concat, if_neg (by decide)]

theorem trim_render_obj (fields : List (String × Json)) :
    Text.trim (Json.render (.obj fields)) = Json.render (.obj fields) := by
  rw [Text.trim]
  rw [render_obj, List.dropWhile_cons_of_neg (by decide), ← List.cons_append,
    List.rdropWhile_concat_neg _ _ _ (by decide)]

variable [Blake3] [F : FileLibs]

/-- The JSON library reads back the objects of a store. -/
def JsonReadsBack (s : Store) : Prop :=
  ∀ d ∈ s.docs.rows, ∀ rest, F.jsonValue (Json.render (exportValue d) ++ rest) =
    .ok (exportValue d, rest)

theorem jsonlRow_render {s : Store} (h : JsonReadsBack s) {d : Doc} (hd : d ∈ s.docs.rows) (i : ℕ) :
    jsonlRow (Json.render (exportValue d), i) = .ok (some (jsonRequest d)) := by
  have hread := h d hd []
  rw [List.append_nil] at hread
  have hvalue : fromStr (Json.render (exportValue d)) = .ok (exportValue d) :=
    fromStr_eq_ok.mpr ⟨[], hread, rfl⟩
  have hne : (Json.render (exportValue d)).isEmpty = false := by
    rw [exportValue, render_obj]
    rfl
  have htrim : Text.trim (Json.render (exportValue d)) = Json.render (exportValue d) :=
    trim_render_obj _
  rw [jsonlRow]
  simp only [htrim, hne, Bool.false_eq_true, if_false]
  refine bind_eq_ok.mpr ⟨exportValue d, mapError_eq_ok.mpr hvalue, ?_⟩
  exact bind_eq_ok.mpr ⟨jsonRequest d, jsonToPut_exportValue d, rfl⟩

theorem jsonlRows_export {s : Store} (h : JsonReadsBack s) :
    jsonlRows (exportJsonl s) = .ok (s.docs.rows.map fun d => .ok (some (jsonRequest d))) := by
  have hlines : Text.lines (s.docs.rows.flatMap fun d => Json.render (exportValue d) ++ ['\n']) =
      s.docs.rows.map fun d => Json.render (exportValue d) := by
    apply Text.lines_flatMap
    · exact fun d _ => Json.newline_not_mem_render _
    · exact fun d _ => stripCr_render_obj _
  have hrows : (s.docs.rows.map fun d => Json.render (exportValue d)).zipIdx.map jsonlRow =
      s.docs.rows.map fun d => .ok (some (jsonRequest d)) := by
    rw [List.zipIdx_map, List.map_map]
    have hrow : ∀ x ∈ s.docs.rows.zipIdx,
        (jsonlRow ∘ Prod.map (fun d => Json.render (exportValue d)) id) x =
          .ok (some (jsonRequest x.1)) := by
      intro x hx
      exact jsonlRow_render h (List.fst_mem_of_mem_zipIdx hx) x.2
    rw [List.map_congr_left hrow]
    have hfst := congrArg (List.map fun d => (Except.ok (some (jsonRequest d)) : Row))
      (List.zipIdx_map_fst 0 s.docs.rows)
    rw [List.map_map] at hfst
    exact hfst
  refine bind_eq_ok.mpr ⟨_, rfl, ?_⟩
  rw [hlines, hrows]

end Jsonl

/-! ## One value for a file -/

section JsonFile

variable [FloatText] [Blake3] [F : FileLibs]

theorem jsonRows_export_one {s : Store} (h : JsonReadsBack s) (hone : s.docs.rows.length = 1) :
    jsonRows (exportJsonl s) = .ok (s.docs.rows.map fun d => .ok (some (jsonRequest d))) := by
  obtain ⟨d, hd⟩ := List.length_eq_one_iff.mp hone
  have hread : F.jsonValue (Json.render (exportValue d) ++ ['\n']) = .ok (exportValue d, ['\n']) :=
    h d (by simp [hd]) _
  have hrow : (jsonToPut (exportValue d)).map some = .ok (some (jsonRequest d)) := by
    rw [jsonToPut_exportValue]
    rfl
  have hfile : exportJsonl s = .text (Json.render (exportValue d) ++ ['\n']) := by
    rw [exportJsonl, hd, List.flatMap_singleton]
  rw [hfile, hd]
  have hvalue : fromStr (Json.render (exportValue d) ++ ['\n']) = .ok (exportValue d) :=
    fromStr_eq_ok.mpr ⟨['\n'], hread, by decide⟩
  refine bind_eq_ok.mpr ⟨_, rfl, bind_eq_ok.mpr ⟨exportValue d, hvalue, ?_⟩⟩
  exact congrArg Except.ok (congrArg (fun row => [row]) hrow)

/-- Without documents there is no value, and with two there is one too many. -/
theorem jsonRows_export_error {s : Store} (h : JsonReadsBack s) (hone : s.docs.rows.length ≠ 1)
    (rows : List Row) : jsonRows (exportJsonl s) ≠ .ok rows := by
  intro hok
  obtain ⟨content, hcontent, hok⟩ := bind_eq_ok.mp hok
  obtain ⟨v, hvalue, -⟩ := bind_eq_ok.mp hok
  obtain rfl := Except.ok.inj hcontent
  obtain ⟨rest, hread, hspace⟩ := fromStr_eq_ok.mp hvalue
  match hrows : s.docs.rows with
  | [] =>
    obtain ⟨e, he⟩ := F.jsonValue_nil
    rw [hrows, List.flatMap_nil, he] at hread
    cases hread
  | [d] => exact hone (by rw [hrows]; rfl)
  | d :: d' :: l =>
    have hfirst := h d (by simp [hrows])
    rw [hrows, List.flatMap_cons, List.append_assoc, hfirst] at hread
    obtain ⟨-, rfl⟩ := Prod.mk.inj (Except.ok.inj hread)
    -- the second object follows
    rw [List.flatMap_cons, exportValue, render_obj] at hspace
    cases hspace

end JsonFile

/-! ## The four formats -/

section Formats

variable [Blake3] [F : FileLibs]

/-- The text formats that are both written and read. -/
def Format.isText : Format → Bool
  | .csv => true
  | .tsv => true
  | .jsonl => true
  | .json => true
  | _ => false

/-- The documents of a store that a format can represent. -/
def Representable (fmt : Format) (s : Store) : Prop :=
  match fmt with
  | .json => s.docs.rows.length = 1 ∧ ∀ d ∈ s.docs.rows, d.meta_ ≠ none
  | .jsonl => ∀ d ∈ s.docs.rows, d.meta_ ≠ none
  | _ => ∀ d ∈ s.docs.rows, d.text ≠ "" ∧ d.title ≠ some "" ∧ d.uri ≠ some ""

theorem importFile_text {ci : Call} {fmt : Format} (hfmt : fmt.isText = true)
    (hci : detect ci = .ok fmt) (file : File) (t : Store) :
    importFile ci file t = fileRows fmt file >>= importRows ci.clock t 0 := by
  rw [importFile]
  rw [hci]
  cases fmt with
  | csv | tsv | jsonl | json => rfl
  | synx | sqlite | parquet | lance | qdrant => cases hfmt

variable [FloatText]

/-- The file of a text format. -/
def textFile (fmt : Format) (s : Store) : File :=
  match fmt with
  | .csv => exportDsv s false
  | .tsv => exportDsv s true
  | _ => exportJsonl s

theorem exportFile_text {ce : Call} {fmt : Format} (hfmt : fmt.isText = true)
    (hce : detect ce = .ok fmt) (s : Store) :
    exportFile ce s = .ok (textFile fmt s, s.docs.rows.length) := by
  rw [exportFile]
  rw [hce]
  cases fmt with
  | csv | tsv | jsonl | json => rfl
  | synx | sqlite | parquet | lance | qdrant => cases hfmt

/-- **Text files.** A store that is exported to a text file and imported into a store without
documents comes back if and only if the format can represent its documents, and there are ids left
for them. -/
theorem text_round_trip_iff (ce ci : Call) (fmt : Format) (hfmt : fmt.isText = true)
    (hce : detect ce = .ok fmt) (hci : detect ci = .ok fmt) (s t : Store)
    (hempty : t.docs.rows = []) (hcsv : CsvReadsBack s) (hjson : JsonReadsBack s) :
    RoundTrips ce ci fmt s t ↔
      Representable fmt s ∧ t.docs.seq + s.docs.rows.length ≤ maxRowid := by
  have hexp := exportFile_text hfmt hce s
  have himp := importFile_text hfmt hci
  cases fmt with
  | csv =>
    rw [roundTrips_iff_of_rows dsvRequest_rowOf hempty hexp (himp _ t)
      (dsvRows_export hcsv (by decide))]
    apply and_congr_left'
    exact forall₂_congr fun d _ => dsvRequest_view (by decide) d
  | tsv =>
    rw [roundTrips_iff_of_rows dsvRequest_rowOf hempty hexp (himp _ t)
      (dsvRows_export hcsv (by decide))]
    apply and_congr_left'
    exact forall₂_congr fun d _ => dsvRequest_view (by decide) d
  | jsonl =>
    rw [roundTrips_iff_of_rows jsonRequest_rowOf hempty hexp (himp _ t) (jsonlRows_export hjson)]
    apply and_congr_left'
    exact forall₂_congr fun d _ => jsonRequest_view (.inl rfl) d
  | json =>
    by_cases hone : s.docs.rows.length = 1
    · rw [roundTrips_iff_of_rows jsonRequest_rowOf hempty hexp (himp _ t)
        (jsonRows_export_one hjson hone)]
      apply and_congr_left'
      rw [Representable, and_iff_right hone]
      exact forall₂_congr fun d _ => jsonRequest_view (.inr rfl) d
    · constructor
      · rintro ⟨file, m, t', n, hexp', hok, -⟩
        obtain ⟨rfl, -⟩ := Prod.mk.inj (Except.ok.inj (hexp.symm.trans hexp'))
        rw [himp] at hok
        obtain ⟨rows, hrows, -⟩ := bind_eq_ok.mp hok
        exact absurd hrows (jsonRows_export_error hjson hone rows)
      · rintro ⟨⟨hlen, -⟩, -⟩
        exact absurd hlen hone
  | synx | sqlite | parquet | lance | qdrant => cases hfmt

end Formats

/-! ## Two stores -/

section Notes

variable [Blake3]

/-- A request to put a short text. -/
def note (text : String) : PutRequest := ⟨none, some "note", text, some (.obj []), none⟩

/-- The store after one note. -/
def oneNote : Store := Store.empty.after (Store.empty.put 0 (note "a"))

/-- The store after two notes. -/
def twoNotes : Store := oneNote.after (oneNote.put 0 (note "b"))

end Notes

/-- A call that says the format is JSON. -/
def jsonCall : Call := ⟨some "json", none, true, fun _ => 0⟩

/-- A note as it is stored. -/
def noteDoc (id : ℤ) (text : String) : Doc := ⟨id, none, some "note", text, some (.obj []), 0⟩

/-- The fields of a note as it is exported. -/
def noteFields (id : ℤ) (text : String) : List (String × Json) :=
  [("id", .int id), ("meta", .obj []), ("text", .str text), ("title", .str "note"), ("ts", .int 0),
    ("uri", .null)]

/-- An object is read if no object that is looked for before it stands there. -/
theorem knowing_jsonValue [FloatText] [Blake3] (before after : List (List (String × Json)))
    (fields : List (String × Json)) (rest : Text)
    (h : ∀ g ∈ before, (Json.render (.obj g)).length ≤ (Json.render (.obj fields)).length ∧
      (Json.render (.obj g)).isPrefixOf (Json.render (.obj fields)) = false) :
    (FileLibs.knowing (before ++ fields :: after)).jsonValue (Json.render (.obj fields) ++ rest) =
      .ok (.obj fields, rest) := by
  have hbefore : (before.find? fun g =>
      (Json.render (.obj g)).isPrefixOf (Json.render (.obj fields) ++ rest)) = none := by
    apply List.find?_eq_none.mpr
    intro g hg hstarts
    obtain ⟨hlen, hfalse⟩ := h g hg
    have hstarts := List.prefix_of_prefix_length_le (List.isPrefixOf_iff_prefix.mp hstarts)
      (List.prefix_append _ _) hlen
    rw [List.isPrefixOf_iff_prefix.mpr hstarts] at hfalse
    cases hfalse
  have hself : (Json.render (.obj fields)).isPrefixOf (Json.render (.obj fields) ++ rest) = true :=
    List.isPrefixOf_iff_prefix.mpr (List.prefix_append _ _)
  have hfind : ((before ++ fields :: after).find? fun g =>
      (Json.render (.obj g)).isPrefixOf (Json.render (.obj fields) ++ rest)) = some fields := by
    rw [List.find?_append, hbefore, Option.none_or]
    exact List.find?_cons_of_pos hself
  rw [FileLibs.knowing]
  simp only [hfind]
  rw [List.drop_left]

/-- A single note comes back from a `.json` file. -/
theorem oneNote_comes_back :
    let _ := FloatText.zero
    let _ := Blake3.identity
    let _ := FileLibs.knowing [noteFields 1 "a"]
    RoundTrips jsonCall jsonCall .json oneNote Store.empty := by
  intro _ _ _
  have hrows : oneNote.docs.rows = [noteDoc 1 "a"] := by rfl
  have hjson : JsonReadsBack oneNote := by
    intro d hd rest
    rw [hrows] at hd
    obtain rfl := List.mem_singleton.mp hd
    exact knowing_jsonValue [] [] (noteFields 1 "a") rest (by simp)
  have hcsv : CsvReadsBack oneNote := by
    rw [CsvReadsBack]
    rw [hrows]
    simp only [List.forall_mem_cons]
    exact ⟨by rfl, by rfl, nofun⟩
  rw [text_round_trip_iff jsonCall jsonCall .json rfl (by decide) (by decide) oneNote Store.empty
    rfl hcsv hjson]
  refine ⟨⟨by rw [hrows]; rfl, ?_⟩, by rw [hrows]; decide⟩
  rw [hrows, List.forall_mem_singleton]
  exact nofun

/-- Two notes are written to a `.json` file that cannot be read. -/
theorem twoNotes_do_not_come_back :
    let _ := FloatText.zero
    let _ := Blake3.identity
    let _ := FileLibs.knowing [noteFields 1 "a", noteFields 2 "b"]
    CsvReadsBack twoNotes ∧ JsonReadsBack twoNotes ∧
      ¬RoundTrips jsonCall jsonCall .json twoNotes Store.empty := by
  intro _ _ _
  have hrows : twoNotes.docs.rows = [noteDoc 1 "a", noteDoc 2 "b"] := by rfl
  refine ⟨?_, ?_, ?_⟩
  · rw [CsvReadsBack]
    rw [hrows]
    simp only [List.forall_mem_cons]
    exact ⟨by rfl, by rfl, nofun⟩
  · intro d hd rest
    rw [hrows, List.mem_cons, List.mem_singleton] at hd
    rcases hd with rfl | rfl
    · exact knowing_jsonValue [] [noteFields 2 "b"] (noteFields 1 "a") rest (by simp)
    · exact knowing_jsonValue [noteFields 1 "a"] [] (noteFields 2 "b") rest (by decide)
  · have hnone : ((exportFile jsonCall twoNotes).toOption.bind fun r =>
        (importFile jsonCall r.1 Store.empty).toOption).isNone = true := by
      decide +kernel
    rintro ⟨file, m, t', n, hexp, himp, -⟩
    rw [toOption_eq_some.mpr hexp, Option.bind_some, toOption_eq_some.mpr himp] at hnone
    cases hnone

end SynxIo

end SynapseMemory
