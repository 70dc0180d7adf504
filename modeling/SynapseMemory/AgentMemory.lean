import SynapseMemory.AgentIsolation
import SynapseMemory.JsonText
import SynapseMemory.Store
import SynapseMemory.Transition

/-!
# Memories that agents write

`memory_save`, `put` and `agent_observe` send a `Put` to the daemon. The daemon checks the sizes of
its fields, embeds the text and puts it into the store. An observation has the scope of its agent in
its `meta`; the tags of a memory are its uri.

All agents write to one store, which has one row for each text and one for each uri. So a call can
fail, or be answered with a row that another agent wrote, depending on what is stored already.
`memories_retrievable_iff` says when: an observation is there for its agent, in every run, if and
only if its text is new and its uri is free, or its text is stored under the same scope already.
-/

namespace SynapseMemory

/-- The embedder of the daemon: its vectors pass the checks of the store. -/
class Embedder where
  embedOne : String → List F32
  valid : ∀ text, Store.checkEmbedding (some (embedOne text)) = .ok ()

/-- Every text as the origin. -/
@[reducible] def Embedder.origin : Embedder where
  embedOne _ := List.replicate Store.embedDim 0
  valid _ := by
    have hfinite : Store.isFinite 0#32 = true := by decide
    simp [Store.checkEmbedding, hfinite]

namespace Agent

open Proto Transition

/-! ## The `Put` request of the daemon -/

/-- Why a save fails. -/
inductive PutError where
  /-- of the tool, before it sends anything -/
  | tool (message : String)
  /-- the daemon cannot read the request -/
  | decode
  | bounds (message : String)
  | store (e : Store.Error)
  deriving DecidableEq

/-- The bound on the bytes of a text. -/
def maxPutBytes : ℕ := 16 * 1024 * 1024

/-- The bound on the bytes of a title. -/
def maxTitleBytes : ℕ := 8 * 1024

/-- The bound on the bytes of a uri. -/
def maxUriBytes : ℕ := 2 * 1024

/-- The bound on the bytes of a meta. -/
def maxMetaBytes : ℕ := 256 * 1024

/-- The arguments of a `Put` as the tools write them. -/
structure PutMessage where
  title : Option Json
  uri : Option Json
  text : String
  meta_ : Option Json
  embed : Bool

/-- An `Option<String>` on the wire. -/
def decodeString : Option Json → Except PutError (Option String)
  | none => .ok none
  | some .null => .ok none
  | some (.str s) => .ok (some s)
  | some _ => .error .decode

/-- How the daemon reads the request of a tool: a title or uri that is no string is refused. -/
def decodePut (m : PutMessage) : Except PutError PutReq := do
  let title ← decodeString m.title
  let uri ← decodeString m.uri
  .ok ⟨title, uri, m.text, m.meta_, m.embed, none⟩

/-- The length of an optional text, if it is more than a bound. -/
def tooLong (bound : ℕ) (t : Option String) : Option ℕ :=
  (t.map fun t => Text.len t.toList).filter (bound < ·)

/-- The error of a field that is over its bound. -/
def tooLarge (what : String) (n bound : ℕ) : PutError :=
  .bounds (what ++ " too large: " ++ toString n ++ " > " ++ toString bound)

section Daemon

variable [FloatText]

/-- `check_put_bounds`: the text, the title, the uri and the meta, in this order. -/
def checkPutBounds (p : PutReq) : Except PutError Unit :=
  if maxPutBytes < Text.len p.text.toList then
    .error (tooLarge "text" (Text.len p.text.toList) maxPutBytes)
  else
    match tooLong maxTitleBytes p.title with
    | some n => .error (tooLarge "title" n maxTitleBytes)
    | none =>
      match tooLong maxUriBytes p.uri with
      | some n => .error (tooLarge "uri" n maxUriBytes)
      | none =>
        match (p.meta_.map fun m => Text.len (Json.render m)).filter (maxMetaBytes < ·) with
        | some _ => .error (.bounds ("meta too large > " ++ toString maxMetaBytes))
        | none => .ok ()

variable [Embedder] [Blake3]

/-- The request as the store gets it. -/
def PutReq.toRequest (p : PutReq) : PutRequest where
  uri := p.uri
  title := p.title
  text := p.text
  meta_ := p.meta_
  embedding := p.embedding.or (if p.embed then some (Embedder.embedOne p.text) else none)

/-- A request within the bounds is put into the store. -/
def putOne (s : Store) (now : ℤ) (p : PutReq) : Except PutError (Store × ℤ) := do
  checkPutBounds p
  (s.put now (PutReq.toRequest p)).mapError .store

end Daemon

/-! ## The tools -/

/-- The text of the arguments, or none. -/
def saveText (args : Json) : String := ((args.get "text").bind Json.asStr).getD ""

/-- The strings among the tags, joined by commas. -/
def joinTags (args : Json) : String :=
  ",".intercalate ((((args.get "tags").bind Json.asArray).getD []).filterMap Json.asStr)

/-- `memory_save`: the tags are put into the uri. -/
def memorySave (args : Json) : PutMessage where
  title := ((args.get "title").bind Json.asStr).map .str
  uri := if joinTags args = "" then some .null else some (.str ("tags:" ++ joinTags args))
  text := saveText args
  meta_ := none
  embed := true

/-- The flag of the arguments for an embedding, which is set if it is not there. -/
def embedArg (args : Json) : Bool := ((args.get "embed").bind Json.asBool).getD true

/-- The tool `put`. -/
def putTool (args : Json) : PutMessage where
  title := args.get "title"
  uri := args.get "uri"
  text := saveText args
  meta_ := none
  embed := embedArg args

/-- The `meta` of an observation. -/
def observeMeta (sc : AgentScope) (args : Json) : Json :=
  .obj ([("schema", .str agentSchema), ("scope", .str sc.scope), ("agent_id", .str sc.agentId),
      ("kind", .str (((args.get "kind").bind Json.asStr).getD "observation"))] ++
    (sc.project.map fun project => ("project", Json.str project)).toList ++
    ["tags", "source_uri", "confidence", "valid_from", "valid_until"].filterMap fun key =>
      (args.get key).map fun value => (key, value))

/-- `agent_observe`: the scope of the agent is put into the meta. -/
def agentObserve (args : Json) : Except PutError PutMessage := do
  let sc ← (agentScope args).mapError .tool
  let text ← (required "text" ((args.get "text").bind Json.asStr)).mapError .tool
  .ok ⟨args.get "title", args.get "source_uri", text, some (observeMeta sc args), embedArg args⟩

/-- A call of a tool that writes, with the time of the store's clock. -/
inductive MemoryCall where
  | memorySave (now : ℤ) (args : Json)
  | put (now : ℤ) (args : Json)
  | agentObserve (now : ℤ) (args : Json)

namespace MemoryCall

/-- The time at which the call reaches the store. -/
def now : MemoryCall → ℤ
  | .memorySave now _ => now
  | .put now _ => now
  | .agentObserve now _ => now

/-- The request of a call, as the daemon reads it. -/
def request : MemoryCall → Except PutError PutReq
  | .memorySave _ args => decodePut (Agent.memorySave args)
  | .put _ args => decodePut (putTool args)
  | .agentObserve _ args => do
    let m ← Agent.agentObserve args
    decodePut m

end MemoryCall

/-! ## Reading an observation back -/

section Reading

variable [FloatText] [Blake3]

/-- The table the agent tools read. -/
def dbOf (s : Store) : Db := ⟨s.docs.rows, s.docs.sorted⟩

/-- A row within the bounds of a request. -/
def InBounds (d : Doc) : Prop :=
  checkPutBounds ⟨d.title, d.uri, d.text, d.meta_, false, none⟩ = .ok ()

/-- Every row came in through a request that was within the bounds. -/
def AllInBounds (s : Store) : Prop := ∀ d ∈ s.docs.rows, InBounds d

/-- The daemon answers for one document within the bounds. -/
structure Serves (h : Host) : Prop where
  send : ∀ id, h.send (.byIds [id]) = .ok ()
  accepts : ∀ id, h.accepts (.byIds [id]) = true
  fits : ∀ d, InBounds d → h.encodedLen [d] < 2 ^ 32

/-- The arguments of `agent_get_observations` for one id, with the agent and the project of a
call. -/
def readArgs (args : Json) (id : ℤ) : Json := innerArgs args [("ids", .arr [.int id])]

variable [Unicode]

/-- `agent_get_observations` returns the id with the text. -/
def Returned (h : Host) (s : Store) (args : Json) (id : ℤ) (text : String) : Prop :=
  ∃ r, agentGetObservations h (dbOf s) (readArgs args id) = .ok r ∧
    ∃ o ∈ r.observations, o.id = id ∧ o.text = text.toList

/-- The answer for one stored id: its document, if it has the scope. -/
theorem agentGetObservations_one {h : Host} (hserves : Serves h) {s : Store}
    (hbounds : AllInBounds s) {args : Json} {sc : AgentScope} (hsc : agentScope args = .ok sc)
    {d : Doc} (hd : d ∈ s.docs.rows) :
    agentGetObservations h (dbOf s) (readArgs args d.id) =
      .ok ⟨sc.scope, if docScope d = some sc.scope then [observation h none d] else []⟩ := by
  have hselect : (dbOf s).select (.byIds [d.id]) = [d] := by
    rw [← Store.filter_id_eq hd]
    simp [Db.select, dbOf]
  have hfits : FitsFrame h (dbOf s) [d.id] := by
    rw [FitsFrame, hselect]
    exact hserves.fits d (hbounds d hd)
  have hrows : sqlRows h (dbOf s) (.byIds [d.id]) = .ok [d] := by
    rw [sqlRows_byIds (by simp [maxSqlRows]) hfits, hserves.send, ok_bind, hserves.accepts, hselect]
    rfl
  -- an id that was given out is in the range of an `i64`
  have hids : requestedIds (readArgs args d.id) = [d.id] := by
    have hpos := s.docs.id_pos d hd
    have hle := (s.docs.le_seq d hd).trans s.seq_le
    have hrange : -2 ^ 63 ≤ d.id ∧ d.id < 2 ^ 63 := by
      change 0 < d.id at hpos
      change d.id ≤ 2 ^ 63 - 1 at hle
      omega
    change [Json.int d.id].filterMap Json.asI64 = [d.id]
    rw [List.filterMap_cons, Json.asI64, if_pos hrange]
    rfl
  have hmax : (readArgs args d.id).get "max_chars" = none := rfl
  have hscope : agentScope (readArgs args d.id) = .ok sc := by
    rw [readArgs, agentScope_innerArgs, hsc]
  simp only [agentGetObservations, hscope, ok_bind, hids, hrows, hmax]
  by_cases hd' : docScope d = some sc.scope
  · simp [hd', removeAll, observation]
    rfl
  · simp [hd', removeAll]
    rfl

theorem returned_iff {h : Host} (hserves : Serves h) {s : Store} (hbounds : AllInBounds s)
    {args : Json} {sc : AgentScope} (hsc : agentScope args = .ok sc) {d : Doc}
    (hd : d ∈ s.docs.rows) (text : String) :
    Returned h s args d.id text ↔ d.text = text ∧ docScope d = some sc.scope := by
  rw [Returned, agentGetObservations_one hserves hbounds hsc hd]
  constructor
  · rintro ⟨r, hr, o, ho, -, htext⟩
    cases hr
    split at ho
    next hscope =>
      obtain rfl := List.mem_singleton.mp ho
      exact ⟨String.toList_inj.mp htext, hscope⟩
    next => cases ho
  · rintro ⟨rfl, hscope⟩
    refine ⟨_, rfl, observation h none d, ?_, rfl, rfl⟩
    rw [if_pos hscope]
    exact List.mem_singleton_self _

end Reading

/-! ## Runs -/

/-- The tools never send an embedding. -/
theorem request_embedding {c : MemoryCall} {p : PutReq} (h : c.request = .ok p) :
    p.embedding = none := by
  have hdecode : ∀ m, decodePut m = .ok p → p.embedding = none := by
    intro m hm
    obtain ⟨title, -, hm⟩ := bind_eq_ok.mp hm
    obtain ⟨uri, -, hm⟩ := bind_eq_ok.mp hm
    cases hm
    rfl
  cases c with
  | memorySave now args => exact hdecode _ h
  | put now args => exact hdecode _ h
  | agentObserve now args =>
    obtain ⟨m, -, hm⟩ := bind_eq_ok.mp h
    exact hdecode m hm

theorem request_memorySave {now : ℤ} {args : Json} {p : PutReq}
    (h : (MemoryCall.memorySave now args).request = .ok p) : p.text = saveText args := by
  obtain ⟨title, -, h⟩ := bind_eq_ok.mp h
  obtain ⟨uri, -, h⟩ := bind_eq_ok.mp h
  cases h
  rfl

/-- The request of an observation has its text and its scope. -/
theorem request_agentObserve {now : ℤ} {args : Json} {p : PutReq} {sc : AgentScope} {text : String}
    (h : (MemoryCall.agentObserve now args).request = .ok p) (hsc : agentScope args = .ok sc)
    (htext : (args.get "text").bind Json.asStr = some text) :
    p.text = text ∧ p.meta_ = some (observeMeta sc args) := by
  obtain ⟨m, hm, h⟩ := bind_eq_ok.mp h
  simp only [agentObserve, hsc, htext] at hm
  cases hm
  obtain ⟨title, -, h⟩ := bind_eq_ok.mp h
  obtain ⟨uri, -, h⟩ := bind_eq_ok.mp h
  cases h
  exact ⟨rfl, rfl⟩

section Runs

variable [FloatText] [Embedder] [Blake3]

/-- The answer to a call: the id of a row, or an error. -/
def answer (s : Store) (c : MemoryCall) : Except PutError (Store × ℤ) := do
  let p ← c.request
  putOne s c.now p

/-- The store after a call. -/
def write (s : Store) (c : MemoryCall) : Store :=
  match answer s c with
  | .ok (s', _) => s'
  | .error _ => s

/-! ## What a call does -/

/-- A call is answered with an id when the daemon takes its request and the store finds or inserts
the text. -/
theorem answer_ok {s s' : Store} {c : MemoryCall} {id : ℤ} :
    answer s c = .ok (s', id) ↔ ∃ p, c.request = .ok p ∧ checkPutBounds p = .ok () ∧
      s.findOrInsert c.now (PutReq.toRequest p) = .ok (s', id) := by
  have hvalid : ∀ p : PutReq, p.embedding = none →
      Store.checkEmbedding (PutReq.toRequest p).embedding = .ok () := by
    intro p hp
    rw [PutReq.toRequest, hp, Option.none_or]
    split
    next => exact Embedder.valid p.text
    next => rfl
  rw [answer, bind_eq_ok]
  apply exists_congr
  intro p
  rw [and_congr_right_iff]
  intro hp
  rw [putOne, bind_eq_ok]
  constructor
  · rintro ⟨⟨⟩, hbounds, hput⟩
    exact ⟨hbounds, (Store.putInner_ok.mp (mapError_eq_ok.mp hput)).2⟩
  · rintro ⟨hbounds, hrow⟩
    have hput := Store.putInner_ok.mpr ⟨hvalid p (request_embedding hp), hrow⟩
    exact ⟨(), hbounds, mapError_eq_ok.mpr hput⟩

/-- What each insert of a request within the bounds preserves, a call preserves. -/
theorem write_invariant {P : Store → Prop} {s : Store} {c : MemoryCall}
    (hins : ∀ {p : PutReq} {s'} {id}, checkPutBounds p = .ok () →
      Store.Inserted s c.now (PutReq.toRequest p) s' id → P s')
    (hP : P s) : P (write s c) := by
  rw [write]
  split
  next s' id hok =>
    obtain ⟨p, -, hbounds, hrow⟩ := answer_ok.mp hok
    rcases Store.findOrInsert_ok hrow with ⟨d, -, rfl, -⟩ | hnew
    · exact hP
    · exact hins hbounds hnew
  next => exact hP

/-- Rows are not changed. -/
theorem mem_rows_write {s : Store} {c : MemoryCall} {d : Doc} (hd : d ∈ s.docs.rows) :
    d ∈ (write s c).docs.rows := by
  refine write_invariant (P := fun s => d ∈ s.docs.rows) ?_ hd
  intro p s' id _ hnew
  rw [hnew.rows_eq]
  exact List.mem_append_left _ hd

theorem AllInBounds.write {s : Store} (h : AllInBounds s) (c : MemoryCall) :
    AllInBounds (write s c) := by
  refine write_invariant ?_ h
  intro p s' id hbounds hnew d hd
  rw [hnew.rows_eq] at hd
  rcases List.mem_append.mp hd with hd | hd
  · exact h d hd
  · obtain rfl := List.mem_singleton.mp hd
    exact hbounds

/-! ## Memories that can be read back -/

theorem saved_iff {s : Store} {now : ℤ} {args : Json} :
    (∃ r, answer s (.memorySave now args) = .ok r) ↔
      ∃ p, (MemoryCall.memorySave now args).request = .ok p ∧ checkPutBounds p = .ok () ∧
        ((s.byText (saveText args)).isSome = true ∨ s.Free p.uri) := by
  constructor
  · rintro ⟨⟨s', id⟩, hok⟩
    obtain ⟨p, hp, hbounds, hrow⟩ := answer_ok.mp hok
    refine ⟨p, hp, hbounds, ?_⟩
    rw [← request_memorySave hp]
    exact Store.findOrInsert_isOk.mp ⟨_, hrow⟩
  · rintro ⟨p, hp, hbounds, hroom⟩
    rw [← request_memorySave hp] at hroom
    obtain ⟨⟨s', id⟩, hrow⟩ : ∃ r, s.findOrInsert now (PutReq.toRequest p) = .ok r :=
      Store.findOrInsert_isOk.mpr hroom
    exact ⟨(s', id), answer_ok.mpr ⟨p, hp, hbounds, hrow⟩⟩

section Retrieval

variable [Unicode]

/-- A call that is to save a text succeeds, and an observation is returned to its agent from then
on. -/
def Retrievable (h : Host) (s : Store) : MemoryCall → Prop
  | .put _ _ => True
  | .memorySave now args =>
    saveText args ≠ "" → ∃ r, answer s (.memorySave now args) = .ok r
  | .agentObserve now args =>
    ∀ sc text, agentScope args = .ok sc → (args.get "text").bind Json.asStr = some text →
      text ≠ "" → ∃ s' id, answer s (.agentObserve now args) = .ok (s', id) ∧
        ∀ later : List MemoryCall, Returned h (later.foldl write s') args id text

/-- The daemon takes the request of a call that is to save a text, and there is room for it: the
text is stored already, for an observation under its scope, or it is new and its uri is free. -/
def Kept (s : Store) : MemoryCall → Prop
  | .put _ _ => True
  | .memorySave now args =>
    saveText args ≠ "" → ∃ p, (MemoryCall.memorySave now args).request = .ok p ∧
      checkPutBounds p = .ok () ∧ ((s.byText (saveText args)).isSome = true ∨ s.Free p.uri)
  | .agentObserve now args =>
    ∀ sc text, agentScope args = .ok sc → (args.get "text").bind Json.asStr = some text →
      text ≠ "" → ∃ p, (MemoryCall.agentObserve now args).request = .ok p ∧
        checkPutBounds p = .ok () ∧
        ((∃ d ∈ s.docs.rows, d.text = text ∧ docScope d = some sc.scope) ∨
          (s.byText text = none ∧ s.Free p.uri))

/-- A row that is there stays there, and is returned to the agents of its scope. -/
theorem returned_later {h : Host} (hserves : Serves h) {s : Store} (hbounds : AllInBounds s)
    {args : Json} {sc : AgentScope} (hsc : agentScope args = .ok sc) {d : Doc}
    (hd : d ∈ s.docs.rows) (hscope : docScope d = some sc.scope) (later : List MemoryCall) :
    Returned h (later.foldl write s) args d.id d.text := by
  induction later generalizing s with
  | nil => exact (returned_iff hserves hbounds hsc hd d.text).mpr ⟨rfl, hscope⟩
  | cons c later ih => exact ih (hbounds.write c) (mem_rows_write hd)

/-- When what an agent observed can be read again. -/
theorem observed_iff {h : Host} (hserves : Serves h) {s : Store} (hbounds : AllInBounds s)
    {now : ℤ} {args : Json} {sc : AgentScope} {text : String} (hsc : agentScope args = .ok sc)
    (htext : (args.get "text").bind Json.asStr = some text) :
    (∃ s' id, answer s (.agentObserve now args) = .ok (s', id) ∧
      ∀ later : List MemoryCall, Returned h (later.foldl write s') args id text) ↔
    ∃ p, (MemoryCall.agentObserve now args).request = .ok p ∧ checkPutBounds p = .ok () ∧
      ((∃ d ∈ s.docs.rows, d.text = text ∧ docScope d = some sc.scope) ∨
        (s.byText text = none ∧ s.Free p.uri)) := by
  constructor
  · rintro ⟨s', id, hok, hlater⟩
    obtain ⟨p, hp, hfits, hrow⟩ := answer_ok.mp hok
    obtain ⟨hptext, -⟩ := request_agentObserve hp hsc htext
    refine ⟨p, hp, hfits, ?_⟩
    rcases Store.findOrInsert_ok hrow with ⟨d, hd, rfl, rfl⟩ | hnew
    · left
      have hd := ((Table.byKey_eq_some _).mp hd).1
      exact ⟨d, hd, (returned_iff hserves hbounds hsc hd text).mp (hlater [])⟩
    · right
      exact ⟨hptext ▸ hnew.fresh, hnew.free⟩
  · rintro ⟨p, hp, hfits, hroom⟩
    obtain ⟨hptext, hmeta⟩ := request_agentObserve hp hsc htext
    rcases hroom with ⟨d, hd, rfl, hscope⟩ | ⟨hnone, hfree⟩
    · have hfound : s.byText p.text = some d := by
        rw [hptext]
        exact (Table.byKey_eq_some _).mpr ⟨hd, rfl⟩
      have hrow : s.findOrInsert now (PutReq.toRequest p) = .ok (s, d.id) :=
        Store.findOrInsert_of_some hfound
      exact ⟨s, d.id, answer_ok.mpr ⟨p, hp, hfits, hrow⟩,
        returned_later hserves hbounds hsc hd hscope⟩
    · rw [← hptext] at hnone ⊢
      obtain ⟨s', hrow⟩ : ∃ s', s.findOrInsert now (PutReq.toRequest p) = .ok (s', _) :=
        Store.findOrInsert_of_free hnone hfree
      have hok : answer s (.agentObserve now args) = .ok (s', _) :=
        answer_ok.mpr ⟨p, hp, hfits, hrow⟩
      have hbounds' : AllInBounds s' := by
        have := hbounds.write (.agentObserve now args)
        rwa [Agent.write, hok] at this
      have hnew := Store.findOrInsert_new hnone hrow
      refine ⟨s', _, hok, ?_⟩
      -- the new row carries the scope in its `meta`
      let d := s.newDoc now (PutReq.toRequest p)
      have hd : d ∈ s'.docs.rows := hnew.newDoc_mem
      have hscope : docScope d = some sc.scope := by
        change ((p.meta_.getD .null).get "scope").bind Json.asStr = _
        rw [hmeta]
        rfl
      exact returned_later hserves hbounds' hsc hd hscope

theorem retrievable_iff {h : Host} (hserves : Serves h) {s : Store} (hbounds : AllInBounds s)
    {c : MemoryCall} : Retrievable h s c ↔ Kept s c := by
  cases c with
  | put now args => exact Iff.rfl
  | memorySave now args => exact imp_congr_right fun _ => saved_iff
  | agentObserve now args =>
    unfold Retrievable Kept
    apply forall₂_congr
    intro sc text
    apply forall₂_congr
    intro hsc htext
    exact imp_congr_right fun _ => observed_iff hserves hbounds hsc htext

/-- In a run of `memory_save`, `put` and `agent_observe`, every call that is to save a text
succeeds, and every observation is returned to its agent, if and only if each of these calls finds
room for its text. -/
theorem memories_retrievable_iff (h : Host) (hserves : Serves h) (calls : List MemoryCall) :
    Meets (fun s c => some (write s c)) (Retrievable h) Store.empty calls ↔
      Meets (fun s c => some (write s c)) Kept Store.empty calls := by
  refine Meets.congr AllInBounds ?_ ?_ ?_
  · intro s c s' hbounds hs'
    obtain rfl := Option.some.inj hs'
    exact hbounds.write c
  · exact fun s c hbounds => retrievable_iff hserves hbounds
  · exact fun d hd => nomatch hd

end Retrieval

end Runs

/-- A daemon that answers at once. -/
def promptHost : Host :=
  { plainHost with
    encodedLen := fun rows => 64 + (rows.map fun d => 128 + Text.len d.text.toList).sum }

theorem promptHost_serves [FloatText] : Serves promptHost where
  send _ := rfl
  accepts _ := rfl
  fits d hd := by
    unfold InBounds checkPutBounds at hd
    split at hd
    next => cases hd
    next hlen =>
      simp only [promptHost, List.map_cons, List.map_nil, List.sum_cons, List.sum_nil]
      simp only [maxPutBytes] at hlen
      omega

/-- An observation of an agent. -/
def observeArgs (agentId : String) : Json :=
  .obj [("agent_id", .str agentId), ("text", .str "note"), ("embed", .bool false)]

/-- The first observation is returned. -/
theorem one_observation_retrievable :
    let _ := Unicode.asciiOnly
    let _ := FloatText.zero
    let _ := Embedder.origin
    let _ := Blake3.identity
    Meets (fun s c => some (write s c)) (Retrievable promptHost) Store.empty
      [.agentObserve 0 (observeArgs "a")] := by
  intro _ _ _ _
  apply (memories_retrievable_iff promptHost promptHost_serves _).mpr
  refine meets_total_cons.mpr ⟨?_, trivial⟩
  intro sc text hsc htext hne
  cases htext
  refine ⟨_, rfl, ?_, .inr ⟨?_, ?_⟩⟩
  · decide
  · decide
  · decide

/-- A second agent with the same text is answered with the id of the first one's row, and does not
get it back. -/
theorem two_agents_one_text_not_retrievable :
    let _ := Unicode.asciiOnly
    let _ := FloatText.zero
    let _ := Embedder.origin
    let _ := Blake3.identity
    ¬Meets (fun s c => some (write s c)) (Retrievable promptHost) Store.empty
      [.agentObserve 0 (observeArgs "a"), .agentObserve 0 (observeArgs "b")] := by
  intro _ _ _ _ h
  obtain ⟨-, h⟩ := meets_total_cons.mp h
  have hbounds : AllInBounds Store.empty := fun d hd => nomatch hd
  have hkept := (retrievable_iff promptHost_serves (hbounds.write _)).mp h.1
  obtain ⟨p, -, -, hroom⟩ := hkept ⟨"b", none, "agent/b"⟩ "note" rfl rfl (by decide)
  rcases hroom with ⟨d, hd, -, hscope⟩ | ⟨hnone, -⟩
  · have hother : ∀ d ∈ (write Store.empty (.agentObserve 0 (observeArgs "a"))).docs.rows,
        docScope d ≠ some "agent/b" := by decide
    exact hother d hd hscope
  · have hsome : ((write Store.empty (.agentObserve 0 (observeArgs "a"))).byText "note").isSome =
        true := by decide
    rw [hnone] at hsome
    cases hsome

end Agent

end SynapseMemory
