import Mathlib

/-!
# The wire protocol of the daemon

The requests and responses that travel as length-prefixed frames, with the fields of the
source. Floating-point values are carried as bit patterns; nothing here computes with them.
-/

namespace SynapseMemory

/-- A 32-bit and a 64-bit float, by their bits. -/
abbrev F32 := BitVec 32

/-- `f64`, by its bits. -/
abbrev F64 := BitVec 64

/-- A JSON value. -/
inductive Json where
  | null
  | bool (b : Bool)
  | int (n : ℤ)
  | real (x : F64)
  | str (s : String)
  | arr (items : List Json)
  | obj (fields : List (String × Json))

namespace Json

/-- `Value::get` -/
def get (v : Json) (key : String) : Option Json :=
  match v with
  | .obj fields => fields.lookup key
  | _ => none

/-- `Value::as_bool` -/
def asBool : Json → Option Bool
  | .bool b => some b
  | _ => none

/-- `Value::as_str` -/
def asStr : Json → Option String
  | .str s => some s
  | _ => none

/-- `Value::as_array` -/
def asArray : Json → Option (List Json)
  | .arr items => some items
  | _ => none

/-- `Value::as_u64` -/
def asU64 : Json → Option ℕ
  | .int n => if 0 ≤ n ∧ n < 2 ^ 64 then some n.toNat else none
  | _ => none

/-- `Value::as_i64` -/
def asI64 : Json → Option ℤ
  | .int n => if -2 ^ 63 ≤ n ∧ n < 2 ^ 63 then some n else none
  | _ => none

end Json

/-- A chain of fallible steps ends well when each of them does. -/
theorem bind_eq_ok {ε α β : Type} {x : Except ε α} {f : α → Except ε β} {b : β} :
    (x >>= f) = .ok b ↔ ∃ a, x = .ok a ∧ f a = .ok b := by
  cases x with
  | error e => exact ⟨nofun, fun ⟨_, h, _⟩ => nomatch h⟩
  | ok a => exact ⟨fun h => ⟨a, rfl, h⟩, fun ⟨_, rfl, h⟩ => h⟩

theorem map_eq_ok {ε α β : Type} {f : α → β} {x : Except ε α} {b : β} :
    x.map f = .ok b ↔ ∃ a, x = .ok a ∧ f a = b := by
  cases x with
  | error e => simp [Except.map]
  | ok a => simp [Except.map]

theorem mapError_eq_ok {ε ε' α : Type} {f : ε → ε'} {x : Except ε α} {a : α} :
    x.mapError f = .ok a ↔ x = .ok a := by
  cases x with
  | ok b => simp [Except.mapError]
  | error e => simp [Except.mapError]

theorem toOption_eq_some {ε α : Type} {x : Except ε α} {a : α} :
    x.toOption = some a ↔ x = .ok a := by
  cases x with
  | ok b => simp [Except.toOption]
  | error e => simp [Except.toOption]

namespace Proto

/-- `SearchMode` -/
inductive SearchMode where
  | lex
  | vec
  | hybrid
  deriving DecidableEq

/-- `BatchSearchItem` -/
structure BatchSearchItem where
  mode : SearchMode
  q : String
  limit : ℕ
  embedQuery : Bool
  deriving DecidableEq

/-- `PutReq` -/
structure PutReq where
  title : Option String
  uri : Option String
  text : String
  meta_ : Option Json
  /-- Embed server-side before the insert, unless an embedding is supplied. -/
  embed : Bool
  embedding : Option (List F32)

/-- `Hit` -/
structure Hit where
  id : ℤ
  uri : Option String
  title : Option String
  text : String
  score : F64
  meta_ : Option Json
  ts : Option ℤ

/-- `Request` -/
inductive Request where
  | ping
  | put (p : PutReq)
  | putBatch (batch : List PutReq)
  | search (mode : SearchMode) (q : String) (limit : ℕ) (embedQuery : Bool)
  | searchScoped (mode : SearchMode) (q : String) (limit : ℕ) (embedQuery : Bool)
      (scopeKey : Option String) (scopeValue : String) (candidateLimit : Option ℕ)
  | stats
  | snap (out : String) (level : ℤ)
  | shutdown
  | merge (id : ℤ) (state : List UInt8)
  | delete (id : ℤ)
  | timeline (limit offset : ℕ)
  | verify (id : ℤ) (vk : List UInt8)
  | embed (text : String) (dim : Option ℕ)
  | searchVec (embedding : List F32) (limit : ℕ)
  | rerank (query : String) (candidates : List Hit) (topK : ℕ)
  | snapMerge (snapshotPath outPath : String) (level : ℤ)
  | batchSearch (queries : List BatchSearchItem)
  | sql (query : String) (params : List Json)
  | transaction (ops : List PutReq)
  | auth (token : String)
  | useTenant (name : String)

/-- `Doc` -/
structure Doc where
  id : ℤ
  uri : Option String
  title : Option String
  text : String
  meta_ : Option Json
  ts : ℤ

/-- `Response` -/
inductive Response where
  | pong
  | id (id : ℤ)
  | ids (ids : List ℤ)
  | hits (hits : List Hit)
  | docs (docs : List Doc)
  | stats (docs vecs : ℤ)
  | ok
  | err (message : String)
  | embed (vec : List F32)
  | batchHits (hits : List (List Hit))
  | rows (cols : List String) (rows : List (List Json))

end Proto

end SynapseMemory
