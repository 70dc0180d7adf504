import SynapseMemory.Text

/-!
# The context packer

The model of `synapse-pack`: candidates in, a token-bounded list of verbatim
blocks out. The pipeline of `pack` is kept stage by stage:

* `trustAdjust` and the sort by score (`rank`);
* `dedupStep`: near-duplicate collapse by SimHash;
* `placeStep`: the greedy walk, one candidate at a time, over the tier ladder
  with the floor of its kind;
* `rescue`: the min-one guarantee, which moves one id back out of the dropped
  list;
* `orderBlocks`: serial-position or cache-stable order.

Scores are `f32` in the source. The packer only adds a literal to a score and
compares two scores, so the score arithmetic is a class (`Score`) with exactly
these operations and no laws; exact rationals are one instance.
-/

namespace SynapseMemory

namespace Pack

/-! ## Kinds and tiers -/

/-- Source class of a candidate. -/
inductive Kind where
  | knownFact
  | decision
  | file
  | chat
  | sessionSummary
  | codebaseMap
  | other
  deriving DecidableEq, Repr

/-- Compression tier; the constructor order is the source's discriminant order. -/
inductive Tier where
  | oneLine
  | factDelta
  | signatures
  | full
  deriving DecidableEq, Repr

/-- `tier as u8`. -/
def Tier.rank : Tier → ℕ
  | .oneLine => 0
  | .factDelta => 1
  | .signatures => 2
  | .full => 3

/-- All tiers from richest to leanest. -/
def Tier.ladder : List Tier := [.full, .signatures, .factDelta, .oneLine]

/-- Lowest tier this kind may be compressed to. -/
def Kind.floor : Kind → Tier
  | .knownFact | .decision | .sessionSummary | .codebaseMap => .signatures
  | .file | .chat | .other => .oneLine

/-- Static trust prior added to the retrieval score, in hundredths. -/
def Kind.trustPrior : Kind → ℤ
  | .knownFact => 5
  | .decision => 3
  | .sessionSummary => 2
  | .codebaseMap => 2
  | .file => 0
  | .chat => -1
  | .other => 0

/-- What the packer does with a score: read a literal (given in hundredths),
add, compare. Nothing is assumed of the operations. -/
class Score (S : Type) where
  /-- a floating-point literal, in hundredths -/
  centi : ℤ → S
  /-- addition -/
  add : S → S → S
  /-- `PartialOrd::partial_cmp`; `none` when a side is not a number -/
  partialCmp : S → S → Option Ordering

/-- Exact scores. -/
instance : Score ℚ where
  centi n := n / 100
  add := (· + ·)
  partialCmp a b := some (compare a b)

/-! ## Data -/

/-- A retrieved candidate before packing. -/
structure Candidate (S : Type) where
  id : ℤ
  title : Text
  text : Text
  score : S
  kind : Kind

/-- One block in the final pack. -/
structure PackedBlock where
  id : ℤ
  kind : Kind
  tier : Tier
  title : Text
  text : Text
  tokens : ℕ
  deriving DecidableEq

/-- Result of packing. -/
structure Packed where
  blocks : List PackedBlock
  usedTokens : ℕ
  budgetTokens : ℕ
  /-- candidate ids that did not fit at any tier -/
  droppedIds : List ℤ
  /-- candidate ids removed as near-duplicates -/
  dedupedIds : List ℤ
  /-- tokens of all candidates taken verbatim -/
  naiveTokens : ℕ
  /-- ids skipped by `packDelta` -/
  deltaSkippedIds : List ℤ
  deriving DecidableEq

/-- Options for `pack`. -/
structure PackOptions where
  budgetTokens : ℕ := 4000
  headerReserve : ℕ := 48
  prevUsedIds : List ℤ := []
  cacheStableOrder : Bool := false

/-! ## Token estimate -/

/-- Common CJK ranges. -/
def isCjk (c : Char) : Bool :=
  let n := c.toNat
  (0x4E00 ≤ n && n ≤ 0x9FFF) || (0x3400 ≤ n && n ≤ 0x4DBF) || (0x3040 ≤ n && n ≤ 0x30FF) ||
    (0xAC00 ≤ n && n ≤ 0xD7A3) || (0xF900 ≤ n && n ≤ 0xFAFF)

/-- The counters of the estimator's character loop. -/
structure TokenScan where
  chars : ℕ := 0
  words : ℕ := 0
  punctRuns : ℕ := 0
  cjk : ℕ := 0
  inWord : Bool := false
  inPunct : Bool := false

/-- One turn of the estimator's character loop. -/
def TokenScan.step [Unicode] (s : TokenScan) (c : Char) : TokenScan :=
  let s := { s with chars := s.chars + 1 }
  if isCjk c then
    { s with cjk := s.cjk + 1, inWord := false, inPunct := false }
  else if Text.isWhitespace c then
    { s with inWord := false, inPunct := false }
  else if Unicode.isAlphanumeric c || c == '_' then
    { s with words := if s.inWord then s.words else s.words + 1, inWord := true, inPunct := false }
  else
    { s with
      punctRuns := if s.inPunct then s.punctRuns else s.punctRuns + 1
      inPunct := true
      inWord := false }

/-- Estimated token count of a text. -/
def estimateTokens [Unicode] (text : Text) : ℕ :=
  if text.isEmpty then 0
  else
    let s := text.foldl TokenScan.step {}
    let wordTokens := (s.words * 13 + 9) / 10
    let structural := wordTokens + s.punctRuns + s.cjk * 2
    let charFloor := (s.chars + 2) / 3
    max (max structural charFloor) 1

/-! ## Deletion-based compression -/

/-- The first line that is not blank, trimmed. -/
def firstNonblank (text : Text) : Text :=
  ((Text.lines text).map Text.trim).find? (fun l => !l.isEmpty) |>.getD []

/-- A line carrying a fact: a number, an operator, a path, or a CAPS term. -/
def factLine (line : Text) : Bool :=
  let t := Text.trim line
  if t.isEmpty then false
  else
    let hasDigit := t.any Char.isDigit
    let hasOp := t.contains '=' || Text.containsStr t ['-', '>'] ||
      Text.containsStr t ['=', '>'] || t.contains ':'
    let hasPath := t.contains '/' && t.any fun c => c == '.' || c == '_'
    let hasCapsTerm := (t.splitOnP fun c => !c.isAlphanum && c != '_').any fun w =>
      2 ≤ Text.len w && w.all fun c => c.isUpper || c == '_'
    hasDigit || hasOp || hasPath || hasCapsTerm

/-- A line worth keeping at the `signatures` tier. -/
def signatureLine (line : Text) (idx n : ℕ) : Bool :=
  let t := Text.trim line
  if t.isEmpty then false
  else
    idx == 0 || idx + 1 == n || ['#'].isPrefixOf t || ['`', '`', '`'].isPrefixOf t ||
      ['-', ' '].isPrefixOf t || ['*', ' '].isPrefixOf t || ['|', ' '].isPrefixOf t ||
      factLine line

/-- The lines satisfying `pred`, or the first non-blank line when there is none. -/
def keepLines (text : Text) (pred : Text → ℕ → ℕ → Bool) : Text :=
  let ls := Text.lines text
  let kept := (ls.zipIdx.filter fun (l, i) => pred l i ls.length).map Prod.fst
  if kept.isEmpty then firstNonblank text else Text.joinLines kept

/-- Cheap signal score of a line. -/
def lineSignal (l : Text) : ℕ :=
  let digits := l.countP Char.isDigit
  let ops := l.count '=' + Text.countMatches l ['-', '>'] + l.count ':'
  digits * 3 + ops * 4 + min (Text.len l) 120 / 20

/-- The trimmed non-blank line of highest signal. -/
def oneLine (text : Text) : Text :=
  Text.maxByKey lineSignal (((Text.lines text).map Text.trim).filter fun l => !l.isEmpty)
    |>.getD []

/-- Deletion-based compression to a tier. -/
def compress (text : Text) : Tier → Text
  | .full => text
  | .signatures => keepLines text signatureLine
  | .factDelta => keepLines text fun l _ _ => factLine l
  | .oneLine => oneLine text

/-- The text whose tokens a block pays for. -/
def renderBlockText (title body : Text) : Text :=
  if title.isEmpty then body else title ++ '\n' :: body

/-! ## SimHash -/

/-- FNV-1a over bytes, wrapping at 64 bits. -/
def fnv1a (bytes : List UInt8) : BitVec 64 :=
  bytes.foldl (fun h b => (h ^^^ BitVec.ofNat 64 b.toNat) * 0x100000001b3#64) 0xcbf29ce484222325#64

/-- The vote of slot `i`: one up for each token hash with bit `i`, one down for
each without. -/
def slot (hashes : List (BitVec 64)) (i : ℕ) : ℤ :=
  (hashes.map fun h => if h.getLsbD i then (1 : ℤ) else -1).sum

/-- 64-bit SimHash over lowercased white-space tokens. -/
def simhash (text : Text) : BitVec 64 :=
  let hashes := (Text.splitWhitespace text).map fun tok =>
    fnv1a (Text.asBytes (Text.toAsciiLowercase tok))
  if hashes.isEmpty then 0#64
  else
    (List.range 64).foldl
      (fun out i => if 0 < slot hashes i then out ||| (1#64 <<< i) else out) 0#64

/-- Number of differing bits. -/
def hamming (a b : BitVec 64) : ℕ := (List.range 64).countP (a ^^^ b).getLsbD

/-! ## The pipeline of `pack` -/

variable {S : Type}

/-- Add the trust prior of the kind to the score. -/
def trustAdjust [Score S] (c : Candidate S) : Candidate S :=
  { c with score := Score.add c.score (Score.centi c.kind.trustPrior) }

/-- The comparison of the sort: descending score, ties and incomparable scores
by ascending id. -/
def byScore [Score S] (a b : Candidate S) : Ordering :=
  ((Score.partialCmp b.score a.score).getD .eq).then (compare a.id b.id)

/-- Trust-adjusted candidates, best first. -/
def rank [Score S] (cands : List (Candidate S)) : List (Candidate S) :=
  (cands.map trustAdjust).mergeSort fun a b => byScore a b != .gt

/-- State of the dedup loop. -/
structure Dedup (S : Type) where
  kept : List (Candidate S) := []
  keptHashes : List (BitVec 64) := []
  dedupedIds : List ℤ := []

/-- One turn of the dedup loop: a candidate within distance 3 of a kept one is
recorded as a duplicate, any other is kept. -/
def dedupStep (d : Dedup S) (c : Candidate S) : Dedup S :=
  let h := simhash c.text
  if d.keptHashes.any fun k => hamming k h ≤ 3 then
    { d with dedupedIds := d.dedupedIds ++ [c.id] }
  else
    { d with keptHashes := d.keptHashes ++ [h], kept := d.kept ++ [c] }

/-- Near-duplicate collapse. -/
def dedup (cands : List (Candidate S)) : Dedup S := cands.foldl dedupStep {}

/-- Best first, second best last, the rest in between. -/
def serialPositionOrder : List PackedBlock → List PackedBlock
  | first :: last :: third :: rest => first :: third :: rest ++ [last]
  | blocks => blocks

/-- Blocks used before come first, the others follow in serial-position order. -/
def cacheStableOrder (blocks : List PackedBlock) (prevUsedIds : List ℤ) : List PackedBlock :=
  if prevUsedIds.isEmpty then serialPositionOrder blocks
  else
    let (stable, fresh) := blocks.partition fun b => prevUsedIds.contains b.id
    stable ++ serialPositionOrder fresh

/-- The order the options ask for. -/
def orderBlocks (options : PackOptions) (blocks : List PackedBlock) : List PackedBlock :=
  if options.cacheStableOrder && !options.prevUsedIds.isEmpty then
    cacheStableOrder blocks options.prevUsedIds
  else serialPositionOrder blocks

/-- The budget left for blocks: the header reserve is capped at a quarter. -/
def available (options : PackOptions) : ℕ :=
  options.budgetTokens - min options.headerReserve (options.budgetTokens / 4)

/-- State of the greedy loop. -/
structure Greedy where
  used : ℕ := 0
  chosen : List PackedBlock := []
  droppedIds : List ℤ := []

section Place

variable [Unicode]

/-- The block of a candidate at a tier. -/
def blockAt (c : Candidate S) (tier : Tier) : PackedBlock :=
  let body := compress c.text tier
  { id := c.id, kind := c.kind, tier, title := c.title, text := body
    tokens := estimateTokens (renderBlockText c.title body) }

/-- The tier loop for one candidate: the richest tier not below the floor whose
block still fits. -/
def placeTier (avail used : ℕ) (c : Candidate S) : Option PackedBlock :=
  Tier.ladder.findSome? fun tier =>
    if tier.rank < c.kind.floor.rank then none
    else
      let b := blockAt c tier
      if used + b.tokens ≤ avail then some b else none

/-- One turn of the greedy loop. -/
def placeStep (avail : ℕ) (g : Greedy) (c : Candidate S) : Greedy :=
  match placeTier avail g.used c with
  | some b => { g with used := g.used + b.tokens, chosen := g.chosen ++ [b] }
  | none => { g with droppedIds := g.droppedIds ++ [c.id] }

/-- The greedy walk over the kept candidates. -/
def place (avail : ℕ) (kept : List (Candidate S)) : Greedy := kept.foldl (placeStep avail) {}

/-- Min-one guarantee: when nothing fit, the top candidate is forced at one line
as long as that line fits the full budget. -/
def rescue (budget : ℕ) (kept : List (Candidate S)) (g : Greedy) : Greedy :=
  match g.chosen, kept with
  | [], top :: _ =>
    let b := blockAt top .oneLine
    if b.tokens ≤ budget then
      { used := b.tokens, chosen := [b], droppedIds := g.droppedIds.filter (· != top.id) }
    else g
  | _, _ => g

/-- Tokens of all candidates taken verbatim. -/
def naiveTokens (cands : List (Candidate S)) : ℕ :=
  (cands.map fun c => estimateTokens c.text).sum

/-- `pack` after the sort: everything that happens to a ranked candidate list. -/
def packRanked (options : PackOptions) (naive : ℕ) (ranked : List (Candidate S)) : Packed :=
  let d := dedup ranked
  let g := rescue options.budgetTokens d.kept (place (available options) d.kept)
  { blocks := orderBlocks options g.chosen
    usedTokens := g.used
    budgetTokens := options.budgetTokens
    droppedIds := g.droppedIds
    dedupedIds := d.dedupedIds
    naiveTokens := naive
    deltaSkippedIds := [] }

/-- Pack candidates into the minimal verbatim state within budget. -/
def pack [Score S] (options : PackOptions) (cands : List (Candidate S)) : Packed :=
  packRanked options (naiveTokens cands) (rank cands)

/-- Incremental pack: candidates of a previous turn are skipped. -/
def packDelta [Score S] (options : PackOptions) (cands : List (Candidate S)) : Packed :=
  let isPrev := fun c : Candidate S => options.prevUsedIds.contains c.id
  let p := pack { options with prevUsedIds := [], cacheStableOrder := false }
    (cands.filter fun c => !isPrev c)
  { p with
    deltaSkippedIds := (cands.filter isPrev).map (·.id)
    naiveTokens := naiveTokens cands }

end Place

/-! ## Labels and rendering -/

/-- `Kind::from_meta` -/
def Kind.fromMeta (s : Text) : Kind :=
  let s := Text.toAsciiLowercase s
  let has (pat : String) : Bool := Text.containsStr s pat.toList
  if has "known-fact" || has "known_fact" || s == "fact".toList then .knownFact
  else if has "decision" || has "adr" then .decision
  else if has "session-summary" || has "session_summary" || has "mega-session" ||
      has "swarm-summary" then .sessionSummary
  else if has "codebase-map" || has "codebase_map" || has "repo-map" || has "funcmap" then
    .codebaseMap
  else if has "file" || has "code" || has "source" then .file
  else if has "chat" || has "session" || has "transcript" then .chat
  else .other

/-- `kind_tag` -/
def kindTag : Kind → Text
  | .knownFact => "known-fact".toList
  | .decision => "decision".toList
  | .file => "file".toList
  | .chat => "chat".toList
  | .sessionSummary => "session-summary".toList
  | .codebaseMap => "codebase-map".toList
  | .other => "other".toList

/-- The `Debug` text of a tier. -/
def Tier.debug : Tier → Text
  | .full => "Full".toList
  | .signatures => "Signatures".toList
  | .factDelta => "FactDelta".toList
  | .oneLine => "OneLine".toList

/-- A block, as the packed text has it. -/
def renderBlock (b : PackedBlock) : Text :=
  "\n[".toList ++ (toString b.id).toList ++ '|' :: kindTag b.kind ++ '|' :: b.tier.debug ++
    "] ".toList ++ renderBlockText b.title b.text ++ ['\n']

/-- The pack as one text; the share of the tokens it saves is given as it is printed. -/
def render (savings : Text) (p : Packed) : Text :=
  let n (count : ℕ) : Text := (toString count).toList
  let delta := if p.deltaSkippedIds.isEmpty then []
    else " · Δ".toList ++ n p.deltaSkippedIds.length ++ " skipped".toList
  "STATE [".toList ++ n p.blocks.length ++ " facts · ".toList ++ n p.droppedIds.length ++
    " dropped · ".toList ++ n p.dedupedIds.length ++ " deduped".toList ++ delta ++
    " · ".toList ++ n p.usedTokens ++ '/' :: n p.budgetTokens ++ " tok · ".toList ++ savings ++
    "% saved]\n".toList ++ p.blocks.flatMap renderBlock

end Pack

end SynapseMemory
