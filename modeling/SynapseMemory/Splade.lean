import SynapseMemory.ScoreTable

/-!
# The sparse indexes: block-max pruning and the exhaustive scan

Two inverted indexes over the same sparse vectors, with scores in exact arithmetic.

* `BlockMaxIndex` keeps the postings of a term in blocks of a fixed size, each with the maximum
  of its weights. `searchTopk` visits the query terms by descending upper bound and skips a block
  when `qw * block.maxWeight + remaining` does not beat the least score on a heap of `k` or more
  partial scores.
* `SpladeIndex` is the table `postings(term_id, doc_id, weight)`; its `search` reads every row
  of every query term.

A hash map is an association list in some iteration order (`SparseVec`), or, where the code only
looks single keys up, a function of its key. `f32::to_bits` orders non-negative floats as numbers,
so a heap entry is ordered by its score and then by the document. -/

namespace SynapseMemory

namespace Splade

/-- `DocId` -/
abbrev DocId := ℕ

/-- `TermId` -/
abbrev TermId := ℕ

/-- A document and its weight under one term. -/
abbrev Posting := DocId × ℚ

/-- `ScoredDoc` -/
abbrev ScoredDoc := DocId × ℚ

/-- A sparse vector: a hash map from terms to weights, listed in its iteration order. -/
structure SparseVec where
  entries : List (TermId × ℚ)
  nodup : (entries.map Prod.fst).Nodup
  deriving DecidableEq

namespace SparseVec

/-- No weight is negative. -/
def Nonneg (v : SparseVec) : Prop := ∀ e ∈ v.entries, 0 ≤ e.2

instance (v : SparseVec) : Decidable v.Nonneg :=
  inferInstanceAs (Decidable (∀ e ∈ v.entries, 0 ≤ e.2))

/-- The weight of a term, zero when the vector lacks it. -/
def weight (v : SparseVec) (t : TermId) : ℚ := (v.entries.lookup t).getD 0

/-- The score of a document: `Σ_{t ∈ q∩d} q_weight(t) * d_weight(t)`. -/
def dot (query doc : SparseVec) : ℚ := (query.entries.map fun e => e.2 * doc.weight e.1).sum

/-- The document shares a term with the query. -/
def Shares (query doc : SparseVec) : Prop :=
  ∃ e ∈ query.entries, e.1 ∈ doc.entries.map Prod.fst

instance (query doc : SparseVec) : Decidable (query.Shares doc) :=
  inferInstanceAs (Decidable (∃ e ∈ query.entries, e.1 ∈ doc.entries.map Prod.fst))

end SparseVec

/-! ## The block-max index -/

/-- One block of postings of a single term. -/
structure Block where
  maxWeight : ℚ
  postings : List Posting
  deriving DecidableEq

/-- Postings sorted by document, with the maximum of their weights. -/
def Block.fromPostings (postings : List Posting) : Block :=
  let postings := postings.insertionSort (fun a b => a.1 ≤ b.1)
  { maxWeight := (postings.map Prod.snd).foldl max 0, postings }

/-- The index: sealed blocks of each term, and the postings that wait for their block to fill. -/
structure BlockMaxIndex where
  terms : TermId → Option (List Block)
  pending : TermId → List Posting
  blockSize : ℕ
  docCount : ℕ

namespace BlockMaxIndex

/-- `new` -/
def new (blockSize : ℕ) : BlockMaxIndex :=
  { terms := fun _ => none, pending := fun _ => [], blockSize, docCount := 0 }

/-- `terms.entry(term_id).or_default().push(block)` -/
def pushBlock (idx : BlockMaxIndex) (t : TermId) (block : Block) : BlockMaxIndex :=
  { idx with terms := Function.update idx.terms t (some ((idx.terms t).getD [] ++ [block])) }

/-- One pass of the loop of `addDoc`: buffer the posting, and seal the buffer when it is full. -/
def addPosting (docId : DocId) (idx : BlockMaxIndex) (entry : TermId × ℚ) : BlockMaxIndex :=
  let buf := idx.pending entry.1 ++ [(docId, entry.2)]
  if idx.blockSize ≤ buf.length then
    { idx with pending := Function.update idx.pending entry.1 [] }.pushBlock entry.1
      (Block.fromPostings buf)
  else
    { idx with pending := Function.update idx.pending entry.1 buf }

/-- `add_doc` -/
def addDoc (idx : BlockMaxIndex) (docId : DocId) (sparse : SparseVec) : BlockMaxIndex :=
  sparse.entries.foldl (addPosting docId) { idx with docCount := idx.docCount + 1 }

/-- Seal every partial buffer. Each term is sealed on its own, so the map is taken pointwise. -/
def flush (idx : BlockMaxIndex) : BlockMaxIndex :=
  { idx with
    terms := fun t =>
      if idx.pending t = [] then idx.terms t
      else some ((idx.terms t).getD [] ++ [Block.fromPostings (idx.pending t)])
    pending := fun _ => [] }

end BlockMaxIndex

/-! ## Searching with pruning -/

/-- A query term that the index knows, with `q_weight * max block max_weight`. -/
structure QueryTerm where
  tid : TermId
  qw : ℚ
  bound : ℚ
  deriving DecidableEq

/-- An entry of the heap: the score a document had when it was pushed. -/
abbrev HeapEntry := ℚ × DocId

/-- The order of the heap: by score, then by document. -/
def HeapEntry.le (a b : HeapEntry) : Prop := a.1 < b.1 ∨ (a.1 = b.1 ∧ a.2 ≤ b.2)

instance : DecidableRel HeapEntry.le := fun a b =>
  inferInstanceAs (Decidable (a.1 < b.1 ∨ (a.1 = b.1 ∧ a.2 ≤ b.2)))

/-- The min-heap, listed from its least entry. -/
abbrev Heap := List HeapEntry

namespace Heap

/-- `push` -/
def push (heap : Heap) (e : HeapEntry) : Heap := heap.orderedInsert HeapEntry.le e

/-- The least score on the heap, zero on an empty one. -/
def min (heap : Heap) : ℚ := (heap.head?.map Prod.fst).getD 0

/-- `while heap.len() > limit { heap.pop(); }` -/
def trim (limit : ℕ) : Heap → Heap
  | [] => []
  | e :: rest => if limit < (e :: rest).length then trim limit rest else e :: rest

end Heap

/-- The accumulator of a search. -/
structure SearchState where
  scores : List ScoredDoc
  heap : Heap
  deriving DecidableEq

/-- What the search knows when it comes to a block: the weight of the query term, the bound
`suffix_max[i + 1]` of the terms after it, and the block. -/
structure Visit where
  qw : ℚ
  remaining : ℚ
  block : Block
  deriving DecidableEq

namespace Visit

/-- The upper bound the block is tested with. -/
def blockUpper (v : Visit) : ℚ := v.qw * v.block.maxWeight + v.remaining

/-- `heap.len() >= k && block_upper <= heap_min(&heap)` -/
def skips (k : ℕ) (st : SearchState) (v : Visit) : Bool :=
  k ≤ st.heap.length && v.blockUpper ≤ st.heap.min

/-- Add one posting to its document's score and offer the new score to the heap. -/
def readPosting (k : ℕ) (qw : ℚ) (st : SearchState) (p : Posting) : SearchState :=
  let scores := ScoreTable.add p.1 (qw * p.2) st.scores
  let s := (scores.lookup p.1).getD 0
  let heap :=
    if st.heap.length < k then st.heap.push (s, p.1)
    else if st.heap.min < s then (st.heap.push (s, p.1)).trim (k * 4)
    else st.heap
  { scores, heap }

/-- Read every posting of the block. -/
def read (k : ℕ) (st : SearchState) (v : Visit) : SearchState :=
  v.block.postings.foldl (readPosting k v.qw) st

/-- The body of the loop over blocks. -/
def step (k : ℕ) (st : SearchState) (v : Visit) : SearchState :=
  if v.skips k st then st else v.read k st

end Visit

/-- The upper bound of all terms of a list: `suffix_max` at its first index. -/
def suffixMax (terms : List QueryTerm) : ℚ := terms.foldr (fun q acc => acc + q.bound) 0

namespace BlockMaxIndex

/-- The query terms that have blocks, by descending upper bound. -/
def queryTerms (idx : BlockMaxIndex) (query : SparseVec) : List QueryTerm :=
  List.insertionSort (fun a b => b.bound ≤ a.bound) <| query.entries.filterMap fun e =>
    (idx.terms e.1).map fun blocks =>
      { tid := e.1, qw := e.2, bound := e.2 * (blocks.map Block.maxWeight).foldl max 0 }

/-- The two nested loops, over terms and over the blocks of a term. -/
def scan (idx : BlockMaxIndex) (k : ℕ) : List QueryTerm → SearchState → SearchState
  | [], st => st
  | q :: rest, st =>
    match idx.terms q.tid with
    | none => scan idx k rest st
    | some blocks =>
      let remaining := suffixMax rest
      scan idx k rest
        (blocks.foldl (fun st block => Visit.step k st { qw := q.qw, remaining, block }) st)

/-- `search_topk` -/
def searchTopk (idx : BlockMaxIndex) (query : SparseVec) (k : ℕ) : List ScoredDoc :=
  if query.entries = [] ∨ k = 0 then []
  else ScoreTable.best k (idx.scan k (idx.queryTerms query) { scores := [], heap := [] }).scores

end BlockMaxIndex

/-! ## The exhaustive index -/

/-- A row of the `postings` table. -/
structure Row where
  termId : TermId
  docId : DocId
  weight : ℚ
  deriving DecidableEq

/-- The `postings` table. -/
structure SpladeIndex where
  postings : List Row

namespace SpladeIndex

/-- `open` -/
def open_ : SpladeIndex := { postings := [] }

/-- Replace the rows of the document by those of its sparse vector. -/
def addDoc (idx : SpladeIndex) (docId : DocId) (sparse : SparseVec) : SpladeIndex :=
  { postings := idx.postings.filter (fun r => r.docId ≠ docId) ++
      sparse.entries.map fun e => { termId := e.1, docId, weight := e.2 } }

/-- The contributions of the rows of one query term. -/
def termRows (idx : SpladeIndex) (e : TermId × ℚ) : List ScoredDoc :=
  (idx.postings.filter (fun r => r.termId = e.1)).map fun r => (r.docId, e.2 * r.weight)

/-- `search` -/
def search (idx : SpladeIndex) (query : SparseVec) (topK : ℕ) : List ScoredDoc :=
  if query.entries = [] ∨ topK = 0 then []
  else ScoreTable.best topK (ScoreTable.tally (query.entries.flatMap idx.termRows))

end SpladeIndex

/-! ## Loading a collection -/

/-- Documents in the order they are added. -/
abbrev Docs := List (DocId × SparseVec)

/-- `add_doc` for every document, then `flush`. -/
def BlockMaxIndex.build (blockSize : ℕ) (docs : Docs) : BlockMaxIndex :=
  (docs.foldl (fun idx d => idx.addDoc d.1 d.2) (BlockMaxIndex.new blockSize)).flush

/-- The index after the documents were added in this order. -/
def SpladeIndex.build (docs : Docs) : SpladeIndex :=
  docs.foldl (fun idx d => idx.addDoc d.1 d.2) SpladeIndex.open_

end Splade

end SynapseMemory
