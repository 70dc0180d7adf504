import SynapseMemory.Crdt
import SynapseMemory.SynxIo

/-!
# Merging two packs

The model of `merge_packs` of `snap.rs`, with the import of a pack from the model of `synx_io`. The
database of the first pack is the base; the rows of the second one are matched with it by their
uri, or by their hash if they have none. A row with a match only gives its `meta_crdt` away, and the
others are inserted, unless the hash is taken: the statement is an `INSERT OR IGNORE`.

So a row of the second pack is in the output exactly if both its uri and its hash are new
(`mergeRows_cells`). Its text is lost where the first pack has another one under its uri, and its
uri is lost where the first pack has its text under another one.
-/

namespace SynapseMemory.Snap

open SynxIo

/-! ## The bytes of a pack -/

theorem leNat_eq (b : Bytes) : leNat b = Bytes.toNat b := by
  induction b with
  | nil => rfl
  | cons x rest ih => rw [leNat, List.foldr_cons, ← leNat, ih, Bytes.toNat]

theorem leBytes_eq (n w : ℕ) : leBytes n w = Bytes.ofNat w n := by
  induction w generalizing n with
  | zero => rfl
  | succ w ih =>
    rw [leBytes, List.range_succ_eq_map, List.map_cons, List.map_map, Bytes.ofNat, ← ih, leBytes]
    refine congrArg₂ List.cons (UInt8.toNat_inj.mp (by simp)) (List.map_congr_left fun i _ => ?_)
    simp [Nat.pow_succ', Nat.div_div_eq_div_mul]

/-- A pack that was written is read. -/
theorem importMagic_pack [Blake3] [F : FileLibs] {level : ℕ} {compressed data : Bytes}
    (hdecode : F.zstdDecode compressed = .ok data) (hlen : data.length < 2 ^ 64)
    (hhash : (F.hashBytes data).length = 32) :
    importMagic (magic ++ [1] ++ leBytes level 4 ++ leBytes data.length 8 ++ F.hashBytes data ++
      compressed) = .ok data := by
  have hfour : (leBytes level 4).length = 4 := by rw [leBytes_eq, Bytes.length_ofNat]
  have height : (leBytes data.length 8).length = 8 := by rw [leBytes_eq, Bytes.length_ofNat]
  simp only [List.append_assoc]
  generalize hraw : magic ++ ([1] ++ (leBytes level 4 ++ (leBytes data.length 8 ++
    (F.hashBytes data ++ compressed)))) = raw
  have hlength : raw.length = 49 + compressed.length := by
    rw [← hraw]
    simp [magic, hfour, height, hhash]
    omega
  have hmagic : raw.take 4 = magic := by
    rw [← hraw]
    exact List.take_left' rfl
  have hversion : raw[4]? = some 1 := by
    rw [← hraw]
    rfl
  -- the fields, each after what comes before it
  have hnine : raw.drop 9 = leBytes data.length 8 ++ (F.hashBytes data ++ compressed) := by
    rw [← hraw, ← List.append_assoc, ← List.append_assoc]
    exact List.drop_left' (by simp [magic, hfour])
  have hseventeen : raw.drop 17 = F.hashBytes data ++ compressed := by
    rw [show 17 = 9 + 8 from rfl, ← List.drop_drop, hnine]
    exact List.drop_left' height
  have hbody : raw.drop 49 = compressed := by
    rw [show 49 = 17 + 32 from rfl, ← List.drop_drop, hseventeen]
    exact List.drop_left' hhash
  have hsize : leNat ((raw.drop 9).take 8) = data.length := by
    rw [hnine, List.take_left' height, leNat_eq, leBytes_eq, Bytes.toNat_ofNat_of_lt hlen]
  have hsum : (raw.drop 17).take 32 = F.hashBytes data := by
    rw [hseventeen, List.take_left' hhash]
  rw [importMagic, if_neg (by omega), if_neg (not_not.mpr hmagic), hversion, if_neg (by decide),
    importRaw, if_neg (by omega), hbody, hdecode, hsize, hsum]
  simp [fromLib, Except.mapError, bind, Except.bind]

/-! ## The rows of a pack -/

/-- A row of `docs` as it is in a pack. -/
structure PackRow [Blake3] where
  id : ℤ
  uri : Option String
  title : Option String
  text : String
  meta_ : Option String
  ts : ℤ
  blake3 : Blake3.Digest
  sig : Option Bytes
  metaCrdt : Option Bytes
  deriving DecidableEq

/-- The constraints on `docs`. -/
def packSchema [Blake3] : Schema PackRow Blake3.Digest String where
  id := PackRow.id
  key := PackRow.blake3
  alt := PackRow.uri

/-- A database: `docs`, and the other tables. -/
structure PackDb [Blake3] (Rest : Type) where
  docs : Table packSchema
  rest : Rest

/-- The libraries behind packs: database files, what the triggers of `docs` do to the other tables,
and compression at a level. -/
class PackLibs [Blake3] [F : FileLibs] where
  Rest : Type
  load : Bytes → Except String (PackDb Rest)
  image : PackDb Rest → Except String Bytes
  load_image : ∀ {db data}, image db = .ok data → load data = .ok db
  length_image_lt : ∀ {db data}, image db = .ok data → data.length < 2 ^ 64
  onInsert : Rest → PackRow → Except String Rest
  onUpdate : Rest → PackRow → PackRow → Except String Rest
  encodeAll : ℤ → Bytes → Except String Bytes
  decode_encodeAll : ∀ {level data c}, encodeAll level data = .ok c → F.zstdDecode c = .ok data
  length_hashBytes : ∀ data, (F.hashBytes data).length = 32

section

variable [Blake3]

/-- The row that a row of the other pack is matched with. -/
def findExisting (docs : Table packSchema) (b : PackRow) : Option PackRow :=
  match b.uri with
  | some u => docs.rows.find? fun r => r.uri = some u
  | none => docs.byKey b.blake3

/-- The row as it is inserted. -/
def newRow (docs : Table packSchema) (b : PackRow) : PackRow := { b with id := docs.seq + 1 }

/-- What a merge never changes in a row. -/
def PackRow.cells (r : PackRow) : Option String × String × Blake3.Digest :=
  (r.uri, r.text, r.blake3)

/-- The cells of all rows. -/
def cells (docs : Table packSchema) : List (Option String × String × Blake3.Digest) :=
  docs.rows.map PackRow.cells

/-- Neither the hash nor the uri of the row is among these. -/
def NewTo (known : List (Option String × String × Blake3.Digest)) (b : PackRow) : Prop :=
  ∀ c ∈ known, c.2.2 ≠ b.blake3 ∧ (c.1 = b.uri → b.uri = none)

instance (known : List (Option String × String × Blake3.Digest)) (b : PackRow) :
    Decidable (NewTo known b) :=
  inferInstanceAs (Decidable (∀ c ∈ known, c.2.2 ≠ b.blake3 ∧ (c.1 = b.uri → b.uri = none)))

theorem newTo_append {xs ys : List (Option String × String × Blake3.Digest)} {b : PackRow} :
    NewTo (xs ++ ys) b ↔ NewTo xs b ∧ NewTo ys b := List.forall_mem_append

/-- The rows of a table are new to each other. -/
theorem newTo_of_nodup {b : PackRow} {rest : List PackRow}
    (hkeys : ((b :: rest).map PackRow.blake3).Nodup)
    (huris : ((b :: rest).filterMap PackRow.uri).Nodup) {r : PackRow} (hr : r ∈ rest) :
    NewTo [b.cells] r := by
  intro c hc
  obtain rfl := List.mem_singleton.mp hc
  refine ⟨fun hkey => ?_, fun huri => ?_⟩
  · exact (List.nodup_cons.mp hkeys).1 (List.mem_map.mpr ⟨r, hr, hkey.symm⟩)
  · by_contra hne
    obtain ⟨u, hu⟩ := Option.ne_none_iff_exists'.mp hne
    have hbu : b.uri = some u := huri.trans hu
    rw [List.filterMap_cons_some hbu] at huris
    exact (List.nodup_cons.mp huris).1 (List.mem_filterMap.mpr ⟨r, hr, hu⟩)

/-- A row is new if neither its hash nor its URI is there. -/
theorem newTo_iff {docs : Table packSchema} {b : PackRow} :
    NewTo (cells docs) b ↔ docs.byKey b.blake3 = none ∧ ¬docs.Taken b.uri := by
  rw [Table.byKey_eq_none, Table.Taken, NewTo, cells, List.forall_mem_map]
  refine ⟨fun h => ⟨fun r hr => (h r hr).1, ?_⟩, fun h r hr => ⟨h.1 r hr, fun huri => ?_⟩⟩
  · rintro ⟨hne, r, hr, huri⟩
    exact hne ((h r hr).2 huri)
  · by_contra hne
    exact h.2 ⟨hne, r, hr, huri⟩

/-- A row that was found is not new. -/
theorem not_newTo_of_findExisting {docs : Table packSchema} {b x : PackRow}
    (h : findExisting docs b = some x) : ¬NewTo (cells docs) b := by
  rw [findExisting] at h
  intro hnew
  cases huri : b.uri with
  | none =>
    rw [huri] at h
    rw [(newTo_iff.mp hnew).1] at h
    cases h
  | some u =>
    simp only [huri] at h
    have hx : x.uri = some u := by simpa using List.find?_some h
    have hnone := (hnew x.cells (List.mem_map_of_mem (List.mem_of_find?_eq_some h))).2
      (hx.trans huri.symm)
    rw [huri] at hnone
    cases hnone

/-! ## The uris and the texts -/

/-- The URIs of the rows that have one. -/
def uris (docs : Table packSchema) : List String := docs.rows.filterMap PackRow.uri

/-- The texts of the rows. -/
def texts (docs : Table packSchema) : List String := docs.rows.map PackRow.text

/-- Each row has the hash of its text. -/
def Valid (docs : Table packSchema) : Prop := ∀ r ∈ docs.rows, r.blake3 = Blake3.hash r.text

/-- The output has every uri and every text of the two packs. -/
def NothingLost (a b o : Table packSchema) : Prop :=
  (∀ u, u ∈ uris a ∨ u ∈ uris b → u ∈ uris o) ∧ ∀ t, t ∈ texts a ∨ t ∈ texts b → t ∈ texts o

/-- No row of the first pack has the hash of this one. -/
def Fresh (a : Table packSchema) (r : PackRow) : Prop := ∀ x ∈ a.rows, x.blake3 ≠ r.blake3

/-- Where the first pack has the uri of the row, it has its text; a uri that is new comes with a new
hash, and a row without one has a new hash or its text is there. -/
def Compatible (a : Table packSchema) (r : PackRow) : Prop :=
  match r.uri with
  | some u => if u ∈ uris a then r.text ∈ texts a else Fresh a r
  | none => r.text ∈ texts a ∨ Fresh a r

instance (a : Table packSchema) (r : PackRow) : Decidable (Fresh a r) :=
  inferInstanceAs (Decidable (∀ x ∈ a.rows, x.blake3 ≠ r.blake3))

instance (a : Table packSchema) (r : PackRow) : Decidable (Compatible a r) :=
  match h : r.uri with
  | some u =>
    decidable_of_iff (if u ∈ uris a then r.text ∈ texts a else Fresh a r) (by rw [Compatible, h])
  | none => decidable_of_iff (r.text ∈ texts a ∨ Fresh a r) (by rw [Compatible, h])

theorem mem_uris {docs : Table packSchema} {u : String} :
    u ∈ uris docs ↔ ∃ c ∈ cells docs, c.1 = some u := by
  simp [uris, cells, PackRow.cells]

theorem mem_texts {docs : Table packSchema} {t : String} :
    t ∈ texts docs ↔ ∃ c ∈ cells docs, c.2.1 = t := by
  simp [texts, cells, PackRow.cells]

theorem newTo_iff_fresh {docs : Table packSchema} {r : PackRow} :
    NewTo (cells docs) r ↔ Fresh docs r ∧ ∀ u, r.uri = some u → u ∉ uris docs := by
  rw [NewTo, cells, List.forall_mem_map]
  refine ⟨fun h => ⟨fun x hx => (h x hx).1, fun u hu hmem => ?_⟩, fun h x hx => ⟨h.1 x hx, ?_⟩⟩
  · obtain ⟨x, hx, hxu⟩ := List.mem_filterMap.mp hmem
    have hnone := (h x hx).2 (hxu.trans hu.symm)
    rw [hu] at hnone
    cases hnone
  · intro huri
    by_contra hne
    obtain ⟨u, hu⟩ := Option.ne_none_iff_exists'.mp hne
    exact h.2 u hu (List.mem_filterMap.mpr ⟨x, hx, huri.trans hu⟩)

/-- The text of the row is in the first pack or the row is new, and so for its uri. -/
theorem compatible_iff {a : Table packSchema} {r : PackRow} :
    Compatible a r ↔ (r.text ∈ texts a ∨ NewTo (cells a) r) ∧
      ∀ u, r.uri = some u → u ∈ uris a ∨ NewTo (cells a) r := by
  rw [Compatible, newTo_iff_fresh]
  cases huri : r.uri with
  | none => simp
  | some u =>
    by_cases hu : u ∈ uris a
    · simp [hu]
    · simp [hu]
      tauto

/-! ## The merge -/

variable [F : FileLibs] [L : PackLibs]

/-- `export`, of a database that is backed up first. -/
def exportDb (db : PackDb L.Rest) (level : ℤ) : Except ImportError Bytes := do
  let data ← fromLib (L.image db)
  let compressed ← fromLib (L.encodeAll level data)
  .ok (magic ++ [1] ++ leBytes (level % 2 ^ 32).toNat 4 ++ leBytes data.length 8 ++
    F.hashBytes data ++ compressed)

/-- `UPDATE docs SET meta_crdt = ?1 WHERE id = ?2` -/
def updateCrdt (out : PackDb L.Rest) (x : PackRow) (merged : Bytes) :
    Except ImportError (PackDb L.Rest) := do
  let rest ← fromLib (L.onUpdate out.rest x { x with metaCrdt := some merged })
  .ok { docs := out.docs.modify
          (fun r => if r.id = x.id then { r with metaCrdt := some merged } else r)
          (fun r => by split <;> rfl) (fun r => by split <;> rfl) (fun r => by split <;> rfl)
        rest }

/-- `INSERT OR IGNORE INTO docs` -/
def insertOrIgnore (out : PackDb L.Rest) (b : PackRow) : Except ImportError (PackDb L.Rest) :=
  if ¬out.docs.seq < maxRowid then .error (.message "database or disk is full")
  else if hnew : out.docs.byKey b.blake3 = none ∧ ¬out.docs.Taken b.uri then do
    let rest ← fromLib (L.onInsert out.rest (newRow out.docs b))
    .ok { docs := out.docs.insert (newRow out.docs b) rfl (out.docs.byKey_eq_none.mp hnew.1) (by
            intro x hx u hxu hru
            exact hnew.2 ⟨by rw [show b.uri = some u from hru]; exact Option.some_ne_none u,
              x, hx, hxu.trans hru.symm⟩)
          rest }
  else .ok out

/-- The database of a pack. -/
def packDb (raw : Bytes) : Except ImportError (PackDb L.Rest) := do
  let data ← importMagic raw
  fromLib (L.load data)

/-- The database that was exported is the one of the pack. -/
theorem packDb_of_exportDb {db : PackDb L.Rest} {level : ℤ} {raw : Bytes}
    (h : exportDb db level = .ok raw) : packDb raw = .ok db := by
  obtain ⟨data, himage, h⟩ := bind_eq_ok.mp h
  obtain ⟨compressed, hencode, h⟩ := bind_eq_ok.mp h
  cases h
  have himage := mapError_eq_ok.mp himage
  rw [packDb, importMagic_pack (L.decode_encodeAll (mapError_eq_ok.mp hencode))
    (L.length_image_lt himage) (L.length_hashBytes data)]
  exact mapError_eq_ok.mpr (L.load_image himage)

/-- Updating the document of a row changes no cell. -/
theorem cells_updateCrdt {out out' : PackDb L.Rest} {x : PackRow} {merged : Bytes}
    (h : updateCrdt out x merged = .ok out') : cells out'.docs = cells out.docs := by
  obtain ⟨rest, -, h⟩ := bind_eq_ok.mp h
  cases h
  rw [cells, cells, Table.modify, List.map_map]
  refine List.map_congr_left fun r _ => ?_
  rw [Function.comp_apply]
  split <;> rfl

variable [Crdt]

/-- One row of the second pack. -/
def mergeRow (out : PackDb L.Rest) (b : PackRow) : Except ImportError (PackDb L.Rest) :=
  match findExisting out.docs b with
  | some x =>
    match b.metaCrdt, x.metaCrdt with
    | none, _ => .ok out
    | some stateB, some stateA => do
      let merged ← fromLib (mergeMeta stateA stateB)
      updateCrdt out x merged
    | some stateB, none => updateCrdt out x stateB
  | none => insertOrIgnore out b

/-- `merge_packs` -/
def mergePacks (rawA rawB : Bytes) (level : ℤ) : Except ImportError Bytes := do
  let dataA ← importMagic rawA
  let dataB ← importMagic rawB
  let a ← fromLib (L.load dataA)
  let b ← fromLib (L.load dataB)
  let out ← b.docs.rows.foldlM mergeRow a
  exportDb out level

/-- The parts of a successful merge. -/
theorem mergePacks_ok {rawA rawB out : Bytes} {level : ℤ} {a b : PackDb L.Rest}
    (ha : packDb rawA = .ok a) (hb : packDb rawB = .ok b)
    (h : mergePacks rawA rawB level = .ok out) :
    ∃ o, b.docs.rows.foldlM mergeRow a = .ok o ∧ packDb out = .ok o := by
  obtain ⟨dataA, hdataA, h⟩ := bind_eq_ok.mp h
  obtain ⟨dataB, hdataB, h⟩ := bind_eq_ok.mp h
  obtain ⟨a', ha', h⟩ := bind_eq_ok.mp h
  obtain ⟨b', hb', h⟩ := bind_eq_ok.mp h
  obtain ⟨o, ho, hexport⟩ := bind_eq_ok.mp h
  rw [packDb, hdataA] at ha
  rw [packDb, hdataB] at hb
  cases ha'.symm.trans ha
  cases hb'.symm.trans hb
  exact ⟨o, ho, packDb_of_exportDb hexport⟩

/-! ## Which rows are in the output -/

/-- A row of the second pack is put behind the others if it is new, and else changes nothing. -/
theorem mergeRow_cells {out out' : PackDb L.Rest} {b : PackRow} (h : mergeRow out b = .ok out') :
    cells out'.docs = cells out.docs ++ if NewTo (cells out.docs) b then [b.cells] else [] := by
  rw [mergeRow] at h
  cases hfind : findExisting out.docs b with
  | some x =>
    rw [if_neg (not_newTo_of_findExisting hfind), List.append_nil]
    simp only [hfind] at h
    split at h
    · cases h
      rfl
    · obtain ⟨merged, -, h⟩ := bind_eq_ok.mp h
      exact cells_updateCrdt h
    · exact cells_updateCrdt h
  | none =>
    simp only [hfind, insertOrIgnore] at h
    split_ifs at h with hroom hnew
    · obtain ⟨rest, -, h⟩ := bind_eq_ok.mp h
      cases h
      rw [if_pos (newTo_iff.mpr hnew)]
      exact List.map_append
    · cases h
      rw [if_neg fun h => hnew (newTo_iff.mp h), List.append_nil]

/-- **What is in the output**: the rows of the first pack, and those of the second one with a new
uri and a new hash. -/
theorem mergeRows_cells {rows : List PackRow} (hkeys : (rows.map PackRow.blake3).Nodup)
    (huris : (rows.filterMap PackRow.uri).Nodup) {out out' : PackDb L.Rest}
    (h : rows.foldlM mergeRow out = .ok out') :
    cells out'.docs =
      cells out.docs ++ (rows.filter (NewTo (cells out.docs))).map PackRow.cells := by
  induction rows generalizing out with
  | nil =>
    cases h
    rw [List.filter_nil, List.map_nil, List.append_nil]
  | cons b rest ih =>
    obtain ⟨out₁, hrow, hrest⟩ := bind_eq_ok.mp h
    have hcells := mergeRow_cells hrow
    have hrestUris : (rest.filterMap PackRow.uri).Nodup :=
      huris.sublist ((List.sublist_cons_self b rest).filterMap _)
    have hlater : rest.filter (NewTo (cells out₁.docs)) = rest.filter (NewTo (cells out.docs)) := by
      refine List.filter_congr fun r hr => decide_eq_decide.mpr ?_
      rw [hcells, newTo_append]
      refine and_iff_left ?_
      split
      · exact newTo_of_nodup hkeys huris hr
      · exact fun c hc => (List.not_mem_nil hc).elim
    rw [ih (List.nodup_cons.mp hkeys).2 hrestUris hrest, hlater, hcells, List.append_assoc,
      List.filter_cons]
    by_cases hnew : NewTo (cells out.docs) b
    · rw [if_pos hnew, if_pos (decide_eq_true hnew), List.map_cons, List.singleton_append]
    · rw [if_neg hnew, if_neg (by simpa using hnew), List.nil_append]

/-- After a merge. -/
theorem cells_merged {a b o : PackDb L.Rest} (h : b.docs.rows.foldlM mergeRow a = .ok o)
    {c : Option String × String × Blake3.Digest} :
    c ∈ cells o.docs ↔ c ∈ cells a.docs ∨
      ∃ r ∈ b.docs.rows, NewTo (cells a.docs) r ∧ r.cells = c := by
  rw [mergeRows_cells b.docs.key_nodup b.docs.alt_nodup h, List.mem_append, List.mem_map]
  refine or_congr_right (exists_congr fun r => ?_)
  rw [List.mem_filter, decide_eq_true_eq, and_assoc]

/-! ## What is lost -/

/-- The merged cells: those of the first pack, and the new ones of the second. -/
theorem exists_merged {a b o : PackDb L.Rest} (h : b.docs.rows.foldlM mergeRow a = .ok o)
    {p : Option String × String × Blake3.Digest → Prop} :
    (∃ c ∈ cells o.docs, p c) ↔
      (∃ c ∈ cells a.docs, p c) ∨ ∃ r ∈ b.docs.rows, NewTo (cells a.docs) r ∧ p r.cells := by
  refine ⟨?_, ?_⟩
  · rintro ⟨c, hc, hp⟩
    rcases (cells_merged h).mp hc with hc | ⟨r, hr, hnew, rfl⟩
    · exact .inl ⟨c, hc, hp⟩
    · exact .inr ⟨r, hr, hnew, hp⟩
  · rintro (⟨c, hc, hp⟩ | ⟨r, hr, hnew, hp⟩)
    · exact ⟨c, (cells_merged h).mpr (.inl hc), hp⟩
    · exact ⟨r.cells, (cells_merged h).mpr (.inr ⟨r, hr, hnew, rfl⟩), hp⟩

/-- When nothing is lost in a merge. -/
theorem nothingLost_iff {a b o : PackDb L.Rest} (hvalid : Valid b.docs)
    (h : b.docs.rows.foldlM mergeRow a = .ok o) :
    NothingLost a.docs b.docs o.docs ↔ ∀ r ∈ b.docs.rows, Compatible a.docs r := by
  have huris : ∀ u, u ∈ uris o.docs ↔ u ∈ uris a.docs ∨
      ∃ r ∈ b.docs.rows, NewTo (cells a.docs) r ∧ r.uri = some u := by
    intro u
    rw [mem_uris, mem_uris, exists_merged h]
    rfl
  have htexts : ∀ t, t ∈ texts o.docs ↔ t ∈ texts a.docs ∨
      ∃ r ∈ b.docs.rows, NewTo (cells a.docs) r ∧ r.text = t := by
    intro t
    rw [mem_texts, mem_texts, exists_merged h]
    rfl
  refine ⟨fun hkept r hr => compatible_iff.mpr ⟨?_, fun u hu => ?_⟩, fun hcompat =>
    ⟨fun u hu => (huris u).mpr ?_, fun t ht => (htexts t).mpr ?_⟩⟩
  · rcases (htexts r.text).mp (hkept.2 r.text (.inr (List.mem_map_of_mem hr))) with
      htext | ⟨x, hx, hnew, htext⟩
    · exact .inl htext
    · -- a row of the second pack with this text has its hash, so it is the row
      have hkey : x.blake3 = r.blake3 := by rw [hvalid x hx, hvalid r hr, htext]
      exact .inr (b.docs.eq_of_key hx hr hkey ▸ hnew)
  · rcases (huris u).mp (hkept.1 u (.inr (List.mem_filterMap.mpr ⟨r, hr, hu⟩))) with
      hmem | ⟨x, hx, hnew, hxu⟩
    · exact .inl hmem
    · exact .inr (b.docs.eq_of_alt hx hr hxu hu ▸ hnew)
  · rcases hu with hu | hu
    · exact .inl hu
    · obtain ⟨r, hr, huri⟩ := List.mem_filterMap.mp hu
      exact ((compatible_iff.mp (hcompat r hr)).2 u huri).imp_right fun hnew => ⟨r, hr, hnew, huri⟩
  · rcases ht with ht | ht
    · exact .inl ht
    · obtain ⟨r, hr, rfl⟩ := List.mem_map.mp ht
      exact (compatible_iff.mp (hcompat r hr)).1.imp_right fun hnew => ⟨r, hr, hnew, rfl⟩

/-- **When a merge loses nothing.** After a merge of two packs has succeeded, the second of them
valid. -/
theorem merge_loses_nothing_iff {rawA rawB out : Bytes} {level : ℤ} {a b : PackDb L.Rest}
    (ha : packDb rawA = .ok a) (hb : packDb rawB = .ok b) (hvalid : Valid b.docs)
    (hmerge : mergePacks rawA rawB level = .ok out) :
    ∃ o, packDb out = .ok o ∧
      (NothingLost a.docs b.docs o.docs ↔ ∀ r ∈ b.docs.rows, Compatible a.docs r) := by
  obtain ⟨o, ho, hout⟩ := mergePacks_ok ha hb hmerge
  exact ⟨o, hout, nothingLost_iff hvalid ho⟩

end

/-! ## Small packs -/

section

variable [Blake3]

/-- The number of a database among those that are known. -/
def numberOf (known : List (Table packSchema)) (docs : Table packSchema) : Option ℕ :=
  known.findIdx? fun t => t.rows = docs.rows ∧ t.seq = docs.seq

theorem getElem?_of_numberOf {known : List (Table packSchema)} {docs : Table packSchema} {i : ℕ}
    (h : numberOf known docs = some i) : known[i]? = some docs := by
  obtain ⟨hlt, hi, -⟩ := List.findIdx?_eq_some_iff_getElem.mp h
  obtain ⟨hrows, hseq⟩ := of_decide_eq_true hi
  rw [List.getElem?_eq_getElem hlt, Table.eq_of_rows hrows hseq]

variable [FloatText]

/-- A file system that knows some databases; a file is the number of one. -/
@[reducible] def PackLibs.knowing (known : List (Table packSchema)) (hknown : known.length ≤ 256) :
    @PackLibs _ (FileLibs.knowing []) :=
  let _ : FileLibs := FileLibs.knowing []
  { Rest := Unit
    load := fun data =>
      match (data.head?.bind fun i => known[i.toNat]?) with
      | some t => .ok ⟨t, ()⟩
      | none => .error "file is not a database"
    image := fun db =>
      match numberOf known db.docs with
      | some i => .ok [UInt8.ofNat i]
      | none => .error "disk I/O error"
    load_image := by
      intro db data h
      split at h
      next i hi =>
        cases h
        have hget := getElem?_of_numberOf hi
        have hlt : i < 256 := (List.getElem?_eq_some_iff.mp hget).1.trans_le hknown
        simp [UInt8.toNat_ofNat_of_lt' hlt, hget]
      · cases h
    length_image_lt := by
      intro db data h
      split at h
      · cases h
        simp
      · cases h
    onInsert := fun rest _ => .ok rest
    onUpdate := fun rest _ _ => .ok rest
    encodeAll := fun _ data => .ok data
    decode_encodeAll := fun h => by
      cases h
      rfl
    length_hashBytes := fun _ => List.length_replicate }

end

/-- The table of rows with these uris and texts, where a text is its own hash. -/
def ofTexts (rows : List (String × String)) : @Table _ _ _ (@packSchema Blake3.identity) :=
  let _ := Blake3.identity
  rows.foldl (fun t p =>
    let b : PackRow := ⟨0, some p.1, none, p.2, none, 0, p.2, none, none⟩
    if hnew : t.byKey b.blake3 = none ∧ ¬t.Taken b.uri then
      t.insert (newRow t b) rfl (t.byKey_eq_none.mp hnew.1) (by
        intro x hx u hxu hru
        exact hnew.2 ⟨Option.some_ne_none p.1, x, hx, hxu.trans hru.symm⟩)
    else t) Table.empty

/-- A pack with one text. -/
def onePack : @Table _ _ _ (@packSchema Blake3.identity) := ofTexts [("x", "one")]

/-- A pack that has neither the URI nor the text of `onePack`. -/
def otherPack : @Table _ _ _ (@packSchema Blake3.identity) := ofTexts [("y", "two")]

/-- A pack with the URI of `onePack`, and another text. -/
def sameUriPack : @Table _ _ _ (@packSchema Blake3.identity) := ofTexts [("x", "two")]

/-- A pack with the text of `onePack`, and another URI. -/
def sameTextPack : @Table _ _ _ (@packSchema Blake3.identity) := ofTexts [("y", "one")]

/-- File formats that know no text. -/
@[reducible] def smallFiles : @FileLibs Blake3.identity :=
  @FileLibs.knowing FloatText.zero Blake3.identity []

/-- The files of these tables, and of the first two merged. -/
@[reducible] def smallLibs : @PackLibs Blake3.identity smallFiles :=
  @PackLibs.knowing Blake3.identity FloatText.zero
    [onePack, otherPack, sameUriPack, sameTextPack, ofTexts [("x", "one"), ("y", "two")]]
    (by decide)

/-- The pack of the table with this number. -/
def smallPack (i : UInt8) : Bytes :=
  magic ++ [1] ++ leBytes 3 4 ++ leBytes 1 8 ++ List.replicate 32 0 ++ [i]

/-- `merge_packs` of two small packs. -/
def mergeSmall (i j : UInt8) : Except ImportError Bytes :=
  let _ := Blake3.identity
  let _ := smallFiles
  let _ := smallLibs
  let _ := Crdt.bytes
  mergePacks (smallPack i) (smallPack j) 3

/-- The database that a small pack is read into. -/
def smallDb (i : UInt8) : Except ImportError (@PackDb Blake3.identity Unit) :=
  let _ := Blake3.identity
  let _ := smallFiles
  let _ := smallLibs
  packDb (smallPack i)

/-- Another text under another uri. -/
theorem otherPack_kept :
    let _ := Blake3.identity
    let _ := smallFiles
    let _ := smallLibs
    let _ := Crdt.bytes
    ∃ out o, mergePacks (smallPack 0) (smallPack 1) 3 = .ok out ∧ packDb out = .ok o ∧
      NothingLost onePack otherPack o.docs := by
  let _ := Blake3.identity
  have ha : smallDb 0 = .ok ⟨onePack, ()⟩ := rfl
  have hb : smallDb 1 = .ok ⟨otherPack, ()⟩ := rfl
  have hmerge : mergeSmall 0 1 = .ok (smallPack 4) := rfl
  have hvalid : @Valid Blake3.identity otherPack := by
    intro r hr
    obtain rfl := List.mem_singleton.mp hr
    rfl
  have hcompat : ∀ r ∈ otherPack.rows, @Compatible Blake3.identity onePack r := by decide
  intro _ _ _ _
  obtain ⟨o, ho, hiff⟩ := merge_loses_nothing_iff ha hb hvalid hmerge
  exact ⟨smallPack 4, o, hmerge, ho, hiff.mpr hcompat⟩

/-- Another text under the same uri: the text is lost. The same text under another uri: the uri
is. -/
theorem sameUri_sameText_lost :
    let _ := Blake3.identity
    let _ := smallFiles
    let _ := smallLibs
    let _ := Crdt.bytes
    (∃ out o, packDb (smallPack 2) = .ok ⟨sameUriPack, ()⟩ ∧
      mergePacks (smallPack 0) (smallPack 2) 3 = .ok out ∧ packDb out = .ok o ∧
      ¬NothingLost onePack sameUriPack o.docs) ∧
    ∃ out o, packDb (smallPack 3) = .ok ⟨sameTextPack, ()⟩ ∧
      mergePacks (smallPack 0) (smallPack 3) 3 = .ok out ∧ packDb out = .ok o ∧
      ¬NothingLost onePack sameTextPack o.docs := by
  let _ := Blake3.identity
  have hone : smallDb 0 = .ok ⟨onePack, ()⟩ := rfl
  have huri : smallDb 2 = .ok ⟨sameUriPack, ()⟩ := rfl
  have htext : smallDb 3 = .ok ⟨sameTextPack, ()⟩ := rfl
  have hmergeUri : mergeSmall 0 2 = .ok (smallPack 0) := rfl
  have hmergeText : mergeSmall 0 3 = .ok (smallPack 0) := rfl
  have hlostText : ¬@NothingLost Blake3.identity onePack sameUriPack onePack := fun h =>
    absurd (h.2 "two" (.inr (by decide))) (by decide)
  have hlostUri : ¬@NothingLost Blake3.identity onePack sameTextPack onePack := fun h =>
    absurd (h.1 "y" (.inr (by decide))) (by decide)
  exact ⟨⟨smallPack 0, ⟨onePack, ()⟩, huri, hmergeUri, hone, hlostText⟩,
    smallPack 0, ⟨onePack, ()⟩, htext, hmergeText, hone, hlostUri⟩

end SynapseMemory.Snap
