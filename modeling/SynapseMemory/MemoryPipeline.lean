import SynapseMemory.Memories
import SynapseMemory.Space
import SynapseMemory.Text

/-!
# The pipeline over the memories

What the pipeline does to the table `memories` besides puts and promotions. `evolveOnIngest` inserts
a memory and supersedes the one of the most similar document. `compact` clusters the active memories
by the similarity of their texts and supersedes all of a cluster but the youngest. `delete` removes
a document with its memories and takes back the references to them.

None of the first two is one transaction. A hook that fails ends the call, and what was written
before stays. So these functions return a store beside their answer.
-/

namespace SynapseMemory

open Proto Space

/-- Arithmetic and comparisons of floats. -/
class Floats where
  /-- The quotient of two counts. -/
  ratio : ℕ → ℕ → F64
  toF32 : F64 → F32
  le32 : F32 → F32 → Bool
  le : F64 → F64 → Bool
  lt : F64 → F64 → Bool

/-- The hooks that the lifecycle calls. -/
class PipelineHooks where
  merge : String → String → Except MemoryError String
  summarize : List String → Except MemoryError String

/-- The order in which a `HashMap` is read. -/
class HashOrder where
  keys : List ℕ → List ℕ
  perm : ∀ ks, (keys ks).Perm ks

/-! ## Similarity -/

section Similarity

variable [Floats]

omit [Floats] in
/-- The words of more than two bytes, each once. -/
def longWords (text : String) : List Text :=
  ((Text.splitWhitespace text.toList).filter fun w => 2 < Text.len w).dedup

/-- `jaccard` -/
def jaccard (a b : String) : F64 :=
  let ta := longWords a
  let tb := longWords b
  if ta.isEmpty && tb.isEmpty then 0
  else
    let inter := (ta.filter tb.contains).length
    let union := (ta ∪ tb).length
    if union = 0 then 0 else Floats.ratio inter union

end Similarity

/-! ## Clusters -/

/-- `find` of the union-find table, with path compression. The fuel is the number of rows. -/
def findRoot : ℕ → List ℕ → ℕ → List ℕ × ℕ
  | 0, parent, i => (parent, i)
  | fuel + 1, parent, i =>
    let p := parent.getD i i
    if p ≠ i then
      let (parent, r) := findRoot fuel parent p
      (parent.set i r, r)
    else (parent, i)

/-- Two similar rows come into one cluster. -/
def joinRows (fuel : ℕ) (similar : ℕ → ℕ → Bool) (parent : List ℕ) (pair : ℕ × ℕ) : List ℕ :=
  if similar pair.1 pair.2 then
    let (parent, ri) := findRoot fuel parent pair.1
    let (parent, rj) := findRoot fuel parent pair.2
    if ri ≠ rj then parent.set ri rj else parent
  else parent

/-- The root of each row. -/
def rootsOf (fuel : ℕ) : List ℕ → List ℕ → List ℕ
  | _, [] => []
  | parent, i :: rest =>
    let (parent, r) := findRoot fuel parent i
    r :: rootsOf fuel parent rest

/-- The rows with a root. -/
def clusterOf (rows : List (ℤ × String)) (roots : List ℕ) (r : ℕ) : List ℤ :=
  ((rows.zip roots).filter fun p => p.2 = r).map fun p => p.1.1

/-- `EvolveCfg` -/
structure EvolveCfg where
  lo : F32
  hi : F32
  maxCandidates : UInt64

namespace MemoryStore

variable [Blake3]

/-- The text of a document. -/
def textOf (s : MemoryStore) (docId : ℤ) : Option String :=
  (s.db.docs.rows.find? fun d => d.id = docId).map Doc.text

/-- The newest active memory of a document. -/
def newestActive (s : MemoryStore) (docId : ℤ) : Option Memory :=
  firstBy Memory.newestFirst
    (s.memories.filter fun m => m.docId = docId && m.supersededBy.isNone)

section Evolve

variable [Floats]

/-- `find_evolve_target` -/
def findEvolveTarget (s : MemoryStore) (newText : String) (candidates : List ℤ) (lo hi : F32) :
    Option ℤ :=
  let best := candidates.foldl (fun best docId =>
    match s.textOf docId with
    | none => best
    | some text =>
      let score := jaccard newText text
      let better := match best with
        | none => true
        | some (_, b) => Floats.lt b score
      if Floats.le32 lo (Floats.toF32 score) && Floats.le32 (Floats.toF32 score) hi && better then
        some (docId, score)
      else best) (none : Option (ℤ × F64))
  best.map Prod.fst

/-- The documents of the most recent active memories. -/
def evolveCandidates (s : MemoryStore) (newDocId : ℤ) (limit : UInt64) : List ℤ :=
  let rows := s.memories.filter fun m => m.supersededBy.isNone && m.docId ≠ newDocId
  (sqlLimit limit (rows.mergeSort fun m n => n.updatedTs ≤ m.updatedTs)).map Memory.docId

variable [PipelineHooks]

/-- `evolve_on_ingest` -/
def evolveOnIngest (s : MemoryStore) (ts oldTs newDocId : ℤ) (newText : String)
    (memoryType : MemoryType) (cfg : EvolveCfg) : MemoryStore × Except MemoryError ℤ :=
  let candidates := s.evolveCandidates newDocId cfg.maxCandidates
  let target := s.findEvolveTarget newText candidates cfg.lo cfg.hi
  match s.putMemory ts newDocId memoryType Memory.full with
  | .error e => (s, .error e)
  | .ok (s, newId) =>
    match target with
    | none => (s, .ok newId)
    | some oldDocId =>
      match PipelineHooks.merge ((s.textOf oldDocId).getD "") newText with
      | .error e => (s, .error e)
      | .ok _ =>
        match s.newestActive oldDocId with
        | none => (s, .ok newId)
        | some old =>
          match s.supersede oldTs old.id newId with
          | .error e => (s, .error e)
          | .ok s => (s, .ok newId)

end Evolve

section Compact

variable [Floats] [HashOrder] [PipelineHooks]

omit [HashOrder] [PipelineHooks] [Floats] in
/-- The most recent active memories with the texts of their documents. -/
def activeTexts (s : MemoryStore) (limit : UInt64) : List (ℤ × String) :=
  let active := s.memories.filter fun m => m.supersededBy.isNone
  let rows := active.filterMap fun m => (s.textOf m.docId).map (m, ·)
  (sqlLimit limit (rows.mergeSort fun a b => b.1.updatedTs ≤ a.1.updatedTs)).map
    fun row => (row.1.id, row.2)

omit [PipelineHooks] in
/-- `cluster_for_compact` -/
def clusterForCompact (s : MemoryStore) (jaccardThreshold : F64) (maxRows : UInt64) :
    List (List ℤ) :=
  let rows := s.activeTexts maxRows
  let n := rows.length
  let similar := fun i j => match rows[i]?, rows[j]? with
    | some a, some b => Floats.le jaccardThreshold (jaccard a.2 b.2)
    | _, _ => false
  let pairs := (List.range n).flatMap fun i => (List.range' (i + 1) (n - (i + 1))).map (i, ·)
  let parent := pairs.foldl (joinRows n similar) (List.range n)
  let roots := rootsOf n parent (List.range n)
  ((HashOrder.keys roots.dedup).map (clusterOf rows roots)).filter fun group => 2 ≤ group.length

omit [HashOrder] [PipelineHooks] [Floats] in
/-- All of a cluster but its representative are superseded; each reads the clock. -/
def supersedeAll (clock : ℤ → ℤ) (rep : ℤ) :
    MemoryStore → List ℤ → MemoryStore × Except MemoryError ℕ
  | s, [] => (s, .ok 0)
  | s, id :: rest =>
    if id = rep then supersedeAll clock rep s rest
    else
      match s.supersede (clock id) id rep with
      | .error e => (s, .error e)
      | .ok s =>
        let (s, n) := supersedeAll clock rep s rest
        (s, n.map (· + 1))

omit [HashOrder] [PipelineHooks] [Floats] in
/-- The texts of some memories. -/
def textsOf (s : MemoryStore) (ids : List ℤ) : List String :=
  ids.filterMap fun id => (s.memories.find? fun m => m.id = id).bind fun m => s.textOf m.docId

omit [HashOrder] [Floats] in
/-- The loop over the clusters. -/
def compactGroups (clock : ℤ → ℤ) :
    MemoryStore → List (List ℤ) → MemoryStore × Except MemoryError ℕ
  | s, [] => (s, .ok 0)
  | s, group :: rest =>
    -- a cluster has two rows at least
    let rep := group.max?.getD 0
    match PipelineHooks.summarize (s.textsOf group) with
    | .error e => (s, .error e)
    | .ok _ =>
      match supersedeAll clock rep s group with
      | (s, .error e) => (s, .error e)
      | (s, .ok k) =>
        let (s, n) := compactGroups clock s rest
        (s, n.map (k + ·))

/-- `compact` -/
def compact (s : MemoryStore) (clock : ℤ → ℤ) (jaccardThreshold : F64) (maxRows : UInt64) :
    MemoryStore × Except MemoryError ℕ :=
  compactGroups clock s (s.clusterForCompact jaccardThreshold maxRows)

end Compact

/-- The memories without those of a document: the references to them are taken back, and then they
are deleted. -/
def memoriesWithout (s : MemoryStore) (id : ℤ) : List Memory :=
  let gone := (s.memories.filter fun m => m.docId = id).map Memory.id
  let kept := s.memories.map fun m =>
    if m.supersededBy.any (· ∈ gone) then { m with supersededBy := none } else m
  kept.filter fun m => m.docId ≠ id

/-- `delete`: a document goes with its memories, in one transaction. -/
def delete [Store.Tokenizer] (s : MemoryStore) (id : ℤ) : Except Store.Error (MemoryStore × Bool) :=
  (s.db.delete id).map fun (db, changed) => ({ db, memories := s.memoriesWithout id }, changed)

end MemoryStore

end SynapseMemory
