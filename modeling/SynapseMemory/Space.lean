import SynapseMemory.Agent
import SynapseMemory.JsonText
import SynapseMemory.Search
import SynapseMemory.Transition

/-!
# Spaces

A space is a database file. A drawer is a document of it, and the wing and the room of a drawer are
in its uri, `spaces://wing/room/uid`. The uid comes from a counter of the process, and the file
outlives the process.

A drawer that is deleted keeps its row. Its `meta` says `"deleted":true` from then on, and the list
of a room leaves out the rows whose `meta` has that text in it.

The state is every file and the counter of the running process (`World`). A file that was not
opened yet is an empty store. Errors of the file system are left out.
-/

namespace SynapseMemory

/-! ## `LIKE` -/

namespace Agent

/-- A text is like itself with a `%` for any end of it. -/
theorem like_append_percent (t rest : Text) : like (t ++ ['%']) (t ++ rest) = true := by
  induction t with
  | nil =>
    simp only [List.nil_append, like, if_true, List.any_eq_true]
    exact ⟨[], (List.mem_tails _ _).mpr List.nil_suffix, rfl⟩
  | cons c t ih =>
    simp only [List.cons_append, like]
    split
    next =>
      apply List.any_eq_true.mpr
      exact ⟨t ++ rest, (List.mem_tails _ _).mpr (List.suffix_cons c _), ih⟩
    next => simpa using ih

/-- A text with another one in it is like that one between two `%`. -/
theorem like_of_infix (t before rest : Text) :
    like ('%' :: t ++ ['%']) (before ++ (t ++ rest)) = true := by
  simp only [List.cons_append, like, if_true, List.any_eq_true]
  exact ⟨t ++ rest, (List.mem_tails _ _).mpr (List.suffix_append before _),
    like_append_percent t rest⟩

end Agent

namespace Space

open Proto Transition

/-! ## The inputs and the responses -/

/-- `SpaceCreateInput` -/
structure SpaceCreateInput where
  name : String
  path : String

/-- `DrawerPutInput` -/
structure DrawerPutInput where
  spacePath : String
  wingName : String
  roomTopic : String
  text : String
  embedding : Option (List F32)

/-- `SpaceSearchInput` -/
structure SpaceSearchInput where
  spacePath : String
  query : String
  limit : Option UInt64
  embedding : Option (List F32)

/-- `DrawerListInput` -/
structure DrawerListInput where
  spacePath : String
  wing : String
  room : String
  limit : Option UInt64
  offset : Option UInt64

/-- `DrawerDeleteInput` -/
structure DrawerDeleteInput where
  spacePath : String
  id : ℤ

/-- `WingSearchInput` -/
structure WingSearchInput where
  spacePath : String
  wing : String
  query : String
  k : Option UInt64

/-- A row of `drawer_list`. -/
structure DrawerRow where
  id : ℤ
  uri : Option String
  title : Option String
  text : String
  ts : ℤ
  deriving DecidableEq

/-- A hit of a search, as it is returned. -/
structure DrawerHit where
  id : ℤ
  text : String
  score : F64
  deriving DecidableEq

/-- What a tool answers. -/
inductive Response where
  | created (name path : String)
  | put (id : ℤ) (uri : String)
  | drawers (rows : List DrawerRow)
  | deleted (id : ℤ)
  | results (hits : List DrawerHit)
  | error (message : String)
  /-- of a new process -/
  | started
  deriving DecidableEq

/-- The ids a response returns to the reader. -/
def Response.ids : Response → List ℤ
  | .drawers rows => rows.map DrawerRow.id
  | .results hits => hits.map DrawerHit.id
  | _ => []

/-- A call of a tool, a put with the time of the clock, or the end of the process and the start of
the next one. -/
inductive Call where
  | spaceCreate (inp : SpaceCreateInput)
  | drawerPut (now : ℤ) (inp : DrawerPutInput)
  | drawerList (inp : DrawerListInput)
  | drawerDelete (inp : DrawerDeleteInput)
  | spaceSearch (inp : SpaceSearchInput)
  | wingSearch (inp : WingSearchInput)
  | restart

/-! ## Texts -/

/-- The `Display` of an error. -/
def errorText : Store.Error → String
  | .sqlite message => "sqlite: " ++ message
  | .dimMismatch expected got =>
    "dim mismatch: expected " ++ toString expected ++ ", got " ++ toString got
  | .other message => "other: " ++ message

/-- `spaces://wing/room/` -/
def roomUri (wing room : String) : Text :=
  "spaces://".toList ++ wing.toList ++ '/' :: room.toList ++ ['/']

/-- The pattern of the URIs of a room. -/
def roomPattern (wing room : String) : Text := roomUri wing room ++ ['%']

/-- The pattern of the URIs of a wing. -/
def wingPattern (wing : String) : Text := "spaces://".toList ++ wing.toList ++ ['/', '%']

/-- The longest pattern SQLite takes, in bytes. -/
def maxLikePattern : ℕ := 50000

/-- The uri of a row is `LIKE` a pattern; a null is not. -/
def uriLike (pattern : Text) (d : Doc) : Bool :=
  match d.uri with
  | some uri => Agent.like pattern uri.toList
  | none => false

/-- What `drawer_delete` writes into `meta`, as text. -/
def deletedText : Text := "\"deleted\":true".toList

/-- The fields of an object; a patch starts anew from anything else. -/
def objectFields : Json → List (String × Json)
  | .obj fields => fields
  | _ => []

/-- The fields of an object with a value set. -/
def setField (fields : List (String × Json)) (key : String) (v : Json) : List (String × Json) :=
  if fields.any (·.1 = key) then fields.map fun f => if f.1 = key then (key, v) else f
  else fields ++ [(key, v)]

/-- `json_patch(meta, ..)` with an object that has the one field `deleted`. -/
def patchDeleted (meta_ : Json) : Json :=
  .obj (setField (objectFields meta_) "deleted" (.bool true))

/-- The row as `drawer_delete` leaves it. -/
def markDeleted (id : ℤ) (d : Doc) : Doc :=
  if d.id = id then { d with meta_ := some (patchDeleted (d.meta_.getD (.obj []))) } else d

theorem markDeleted_id (id : ℤ) (d : Doc) : (markDeleted id d).id = d.id := by
  rw [markDeleted]
  split
  next => rfl
  next => rfl

theorem markDeleted_text (id : ℤ) (d : Doc) : (markDeleted id d).text = d.text := by
  rw [markDeleted]
  split
  next => rfl
  next => rfl

theorem markDeleted_uri (id : ℤ) (d : Doc) : (markDeleted id d).uri = d.uri := by
  rw [markDeleted]
  split
  next => rfl
  next => rfl

section Rows

variable [FloatText]

/-- `meta LIKE` with `deletedText` between two `%`. -/
def softDeleted (d : Doc) : Bool :=
  match d.meta_ with
  | some meta_ => Agent.like ('%' :: deletedText ++ ['%']) (Json.render meta_)
  | none => false

/-- The condition of the list of a room. -/
def shown (wing room : String) (d : Doc) : Bool :=
  uriLike (roomPattern wing room) d && !softDeleted d

end Rows

section Tools

variable [Blake3]

/-- The spaces, and the counter of this process. -/
structure World where
  /-- The files, by their paths. -/
  spaces : String → Store
  /-- The counter of `monotonic_uid`. -/
  ctr : UInt64

namespace World

/-- No file yet, in a new process. -/
def new : World := ⟨fun _ => Store.empty, 1⟩

/-- The world with another store at a path. -/
def write (w : World) (path : String) (s : Store) : World :=
  { w with spaces := Function.update w.spaces path s }

@[simp] theorem write_self (w : World) (path : String) (s : Store) :
    (w.write path s).spaces path = s := by
  simp [write]

theorem write_of_ne (w : World) {path other : String} (s : Store) (h : other ≠ path) :
    (w.write path s).spaces other = w.spaces other := by
  simp [write, h]

end World

/-! ## The tools -/

/-- `space_create`, which makes nothing. -/
def spaceCreate (w : World) (inp : SpaceCreateInput) : World × Response :=
  (w, .created inp.name inp.path)

/-- The URI of a new drawer. -/
def drawerUri (w : World) (inp : DrawerPutInput) : String :=
  String.ofList (roomUri inp.wingName inp.roomTopic ++ (toString w.ctr.toNat).toList)

/-- The request of `Room::put`. -/
def drawerRequest (w : World) (inp : DrawerPutInput) : PutRequest where
  uri := some (drawerUri w inp)
  title := some (inp.wingName ++ "/" ++ inp.roomTopic)
  text := inp.text
  meta_ := none
  embedding := inp.embedding

/-- The uid is used up even when the put fails. -/
def drawerPut (w : World) (now : ℤ) (inp : DrawerPutInput) : World × Response :=
  let next := { w with ctr := w.ctr + 1 }
  match (w.spaces inp.spacePath).put now (drawerRequest w inp) with
  | .ok (s, id) => (next.write inp.spacePath s, .put id (drawerUri w inp))
  | .error e => (next, .error (errorText e))

/-- `LIMIT ?` of a `usize` that was cast to `i64`: a negative limit is none. -/
def sqlLimit {α : Type} (limit : UInt64) (rows : List α) : List α :=
  if limit.toNat < 2 ^ 63 then rows.take limit.toNat else rows

omit [Blake3] in
theorem sqlLimit_sublist {α : Type} (limit : UInt64) (rows : List α) :
    (sqlLimit limit rows).Sublist rows := by
  rw [sqlLimit]
  split
  · exact List.take_sublist _ _
  · exact List.Sublist.refl _

/-- `OFFSET ?`, likewise. -/
def sqlOffset {α : Type} (offset : UInt64) (rows : List α) : List α :=
  if offset.toNat < 2 ^ 63 then rows.drop offset.toNat else rows

variable [FloatText]

/-- The rows the statement of `drawer_list` selects. -/
def selectDrawers (rows : List Doc) (inp : DrawerListInput) : List Doc :=
  let sorted := (rows.filter (shown inp.wing inp.room)).mergeSort fun a b => b.ts ≤ a.ts
  sqlLimit (inp.limit.getD 50) (sqlOffset (inp.offset.getD 0) sorted)

/-- `drawer_list` -/
def drawerList (w : World) (inp : DrawerListInput) : Response :=
  let rows := (w.spaces inp.spacePath).docs.rows
  -- the length of a pattern is checked at the first row
  if maxLikePattern < Text.len (roomPattern inp.wing inp.room) ∧ rows ≠ [] then
    .error "LIKE or GLOB pattern too complex"
  else
    .drawers ((selectDrawers rows inp).map fun d => ⟨d.id, d.uri, d.title, d.text, d.ts⟩)

/-- The `UPDATE` of `drawer_delete`, with the trigger `docs_au`. -/
def softDelete (s : Store) (id : ℤ) : Store where
  docs := s.docs.modify (markDeleted id) (markDeleted_id id)
    (fun d => congrArg Blake3.hash (markDeleted_text id d)) (markDeleted_uri id)
  vecs := s.vecs
  fts := s.fts ++ (s.docs.rows.filter fun d => d.id = id).flatMap fun d =>
    [.delete d.id d.title d.text, .insert d.id d.title d.text]
  seq_le := s.seq_le
  vecs_le := s.vecs_le

/-- `drawer_delete` -/
def drawerDelete (w : World) (inp : DrawerDeleteInput) : World × Response :=
  let s := w.spaces inp.spacePath
  if s.docs.rows.any fun d => d.id = inp.id then
    (w.write inp.spacePath (softDelete s inp.id), .deleted inp.id)
  else (w, .error "not found")

variable [SearchEngine]

/-- `Space::search` -/
def search (s : Store) (query : String) (embedding : Option (List F32)) (limit : ℕ) :
    Except String (List DrawerHit) := do
  let mode := if embedding.isSome then SearchMode.hybrid else .lex
  let hits ← s.search query.toList mode embedding limit
  .ok (hits.map fun h => ⟨h.id, h.text, h.score⟩)

/-- `space_search` -/
def spaceSearch (w : World) (inp : SpaceSearchInput) : Response :=
  match search (w.spaces inp.spacePath) inp.query inp.embedding (inp.limit.getD 10).toNat with
  | .ok hits => .results hits
  | .error e => .error e

/-- The row with an id is in a wing. A pattern that is too long is an error, which counts as no. -/
def inWing (s : Store) (wing : String) (id : ℤ) : Bool :=
  Text.len (wingPattern wing) ≤ maxLikePattern &&
    s.docs.rows.any fun d => d.id = id && uriLike (wingPattern wing) d

/-- `wing_search` -/
def wingSearch (w : World) (inp : WingSearchInput) : Response :=
  let s := w.spaces inp.spacePath
  let k := inp.k.getD 10
  match search s inp.query none (k * 4).toNat with
  | .ok hits => .results ((hits.filter fun h => inWing s inp.wing h.id).take k.toNat)
  | .error e => .error e

/-- A call, with its answer. -/
def respond (w : World) : Call → World × Response
  | .spaceCreate inp => spaceCreate w inp
  | .drawerPut now inp => drawerPut w now inp
  | .drawerList inp => (w, drawerList w inp)
  | .drawerDelete inp => drawerDelete w inp
  | .spaceSearch inp => (w, spaceSearch w inp)
  | .wingSearch inp => (w, wingSearch w inp)
  | .restart => ({ w with ctr := 1 }, .started)

/-- The world after a call. -/
def step (w : World) (c : Call) : World := (respond w c).1

end Tools

end Space

end SynapseMemory
