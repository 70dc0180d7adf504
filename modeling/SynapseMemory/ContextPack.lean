import SynapseMemory.Agent
import SynapseMemory.JsonText
import SynapseMemory.Lru
import SynapseMemory.PackAccounting

/-!
# `context_pack` of the MCP server

A pack is made from what the daemon finds for a query: noise is dropped, the rest is scored and
packed within a budget. Two things of the server process lie around this. The **pack cache** answers
a repeated query without asking the daemon, and it is where the ids of a previous pack are looked up
for a delta pack. The **feedback state** counts the packs without feedback and scales the budget
down when there are many.

What the daemon has (the documents, and the learned rewards in their own database) is one value of
`ContextHost.Db`. How it is searched and changed is a parameter, and so are the learned noise model,
the arithmetic of scores, the hash of the cache key and the order in which a hash map is read.

An entry of the cache is kept together with the call that stored it. The server does not have this
and nothing here reads it: it is there to say which call an answer from the cache belongs to.
-/

namespace SynapseMemory

open Proto Pack

/-- The tools of the server that write, but for the feedback tools. -/
inductive WriteTool where
  | memorySave
  | put
  | memoryDelete
  | merge
  | synapseMerge
  | contextRemember
  | sessionIngest
  | agentObserve
  deriving DecidableEq

/-- What lies outside the server process. -/
class ContextHost where
  Db : Type
  /-- `hybrid_hits`: the hits of the daemon for a query and a limit. -/
  hybridHits : Db → Text → ℕ → Except String (List Hit)
  /-- What the daemon does for a tool that writes, and its answer if one arrives. -/
  perform : Db → WriteTool → Json → Db × Except String Json
  S : Type
  score : Score S
  /-- `f64 as f32` -/
  ofF64 : F64 → S
  /-- The first number over the second, times 0.1. -/
  overlap : ℕ → ℕ → S
  /-- `>` of two `f64` -/
  gt : F64 → F64 → Bool
  /-- The learned bonus of a kind, if the learn store has one. -/
  learned : Db → Kind → Option S
  /-- The learned model, if there is one, takes the hit for noise. -/
  learnedNoise : Hit → Bool
  /-- The hash of a query and a budget. -/
  key : String → ℕ → UInt64
  /-- The order in which the values of a hash map are read. -/
  iter : {α : Type} → List α → List α
  iter_perm : ∀ {α : Type} (l : List α), (iter l).Perm l
  /-- The share of saved tokens in per cent, from the naive and the used tokens. -/
  savingsPct : ℕ → ℕ → F32
  showF32 : F32 → Text

attribute [reducible, instance] ContextHost.score

/-- A daemon that finds everything it has. -/
@[reducible] def ContextHost.list : ContextHost where
  Db := List Hit
  hybridHits db _ k := .ok (db.take k)
  perform db _ args :=
    let text := ((args.get "text").bind Json.asStr).getD ""
    (db ++ [⟨db.length + 1, none, none, text, 0, none, none⟩], .ok (.int (db.length + 1)))
  S := ℤ
  score := ⟨id, (· + ·), fun a b => some (compare a b)⟩
  ofF64 _ := 0
  overlap _ _ := 0
  gt _ _ := false
  learned _ _ := none
  learnedNoise _ := false
  key query budget := UInt64.ofNat (query.toList.foldl (fun n c => n * 256 + c.toNat) budget)
  iter l := l
  iter_perm l := List.Perm.refl l
  savingsPct _ _ := 0
  showF32 _ := ['0']

namespace ContextPack

/-! ## The arguments -/

/-- The arguments of a call. -/
structure PackArgs where
  query : String
  budgetTokens : ℕ
  k : ℕ
  prevPackId : Option String
  cacheStableOrder : Bool
  useCache : Bool
  kinds : Option (List Text)

/-- A call reads and writes the cache if it asks for it and is not for a delta pack. -/
def PackArgs.cached (args : PackArgs) : Bool := args.useCache && args.prevPackId.isNone

/-- The kind is asked for, by a part of its tag. -/
def PackArgs.wants (args : PackArgs) (kind : Kind) : Bool :=
  match args.kinds with
  | none => true
  | some filter => filter.any fun f => Text.containsStr (kindTag kind) f

theorem prevPackId_of_cached {args : PackArgs} (h : args.cached = true) :
    args.prevPackId = none := by
  obtain ⟨-, hnone⟩ := Bool.and_eq_true_iff.mp h
  exact Option.isNone_iff_eq_none.mp hnone

/-- A flag of the arguments, or its default. -/
def boolArg (args : Json) (key : String) (default_ : Bool) : Bool :=
  ((args.get key).bind Json.asBool).getD default_

/-- How the arguments are read. The query may be given as a task. -/
def packArgs (args : Json) : Except String PackArgs := do
  let query ← Agent.required "query" (((args.get "query").or (args.get "task")).bind Json.asStr)
  .ok { query := query
        budgetTokens := Agent.numberArg args "budget_tokens" 4000
        k := Agent.numberArg args "k" 32
        prevPackId := (args.get "prev_pack_id").bind Json.asStr
        cacheStableOrder := boolArg args "cache_stable_order" false
        useCache := boolArg args "use_cache" true
        kinds := ((args.get "kinds").bind Json.asArray).map fun items =>
          items.filterMap fun x => x.asStr.map fun s => Text.toAsciiLowercase s.toList }

/-! ## Noise -/

/-- `is_noise`: what must not enter a pack. -/
def isNoise (h : Hit) : Bool :=
  let title := (h.title.getD "").toList
  let uri := (h.uri.getD "").toList
  let text := h.text.toList
  let has (t : Text) (pat : String) : Bool := Text.containsStr t pat.toList
  has title "[telepathy]" || has text "[telepathy]" ||
    has text "<task-notification>" || has text "tool-use-id" ||
    has text "\"models_loaded\"" || has text "\"desktop_procs\"" || has text "\"cli_sessions\"" ||
    ".log".toList.isSuffixOf uri || ".log".toList.isSuffixOf title ||
    has title "sched_briefing" || "Agent [briefing]".toList.isPrefixOf text ||
    Text.len (Text.trim text) < 40

/-! ## Pack ids -/

/-- `i64::to_le_bytes` -/
def leBytes (n : ℤ) : List UInt8 :=
  (List.range 8).map fun i => UInt8.ofNat (((BitVec.ofInt 64 n) >>> (8 * i)).toNat % 256)

/-- The sixteen hexadecimal digits of a number. -/
def hex16 (n : ℕ) : Text := (List.range 16).map fun i => Json.hexDigit (n / 16 ^ (15 - i) % 16)

/-- `pack_id`: a hash of the query and the ids. -/
def packId (query : String) (ids : List ℤ) : String :=
  String.ofList ("pk_".toList ++
    hex16 (fnv1a (Text.asBytes query.toList ++ ids.flatMap leBytes)).toNat)

/-! ## The feedback state -/

/-- The packs that were given out, with the time and whether there was feedback. -/
structure FeedbackState where
  packs : List (String × ℤ × Bool)

namespace FeedbackState

/-- A pack that is given out again starts over, and packs older than an hour are dropped. -/
def registerPack (f : FeedbackState) (packId : String) (now : ℤ) : FeedbackState :=
  ⟨((packId, now, false) :: f.packs.filter (·.1 ≠ packId)).filter fun p => now - 3600 < p.2.1⟩

/-- `mark_feedback`: a pack has been used. -/
def markFeedback (f : FeedbackState) (packId : String) : FeedbackState :=
  ⟨f.packs.map fun p => if p.1 = packId then (p.1, p.2.1, true) else p⟩

/-- The packs without feedback. -/
def openPacks (f : FeedbackState) : ℕ := f.packs.countP fun p => !p.2.2

/-- The budget that is used for a requested one. Multiplication wraps. -/
def budgetFactor (f : FeedbackState) (requested : ℕ) : ℕ :=
  if 6 ≤ f.openPacks then max (requested * 2 % 2 ^ 64 / 5) 512
  else if 3 ≤ f.openPacks then max (requested * 3 % 2 ^ 64 / 5) 512
  else requested

end FeedbackState

/-! ## Hints for the skill router -/

/-- The words that suggest skills, and the skills. -/
def skillTable : List (List String × List String) :=
  [(["trade", "trading", "stock", "portfolio", "invest", "investing", "ipo", "pre-ipo", "kelly",
      "asymbet", "winvestment", "backtest"], ["asymbet", "winvestment-profet"]),
    (["marketing", "copy", "copywriting", "landing", "seo", "ad", "ads", "cro", "funnel", "brand"],
      ["copywriting", "cro"]),
    (["code", "repo", "rust", "typescript", "refactor", "bug", "test", "cargo", "build", "deploy"],
      ["agent-token-saver"]),
    (["research", "scrape", "web", "url", "article", "news", "source"], ["superscrape"]),
    (["book", "write", "writing", "author", "publish", "hörbuch", "audiobook"],
      ["universalbook"])]

/-- `skill_preload_hints`: the skills of the first words that trigger one, three at most. -/
def skillPreloadHints (query : String) : List String :=
  let words := Text.splitWhitespace (Text.toAsciiLowercase query.toList)
  let hints := skillTable.flatMap fun (triggers, skills) =>
    if words.any fun w => triggers.any fun t => w = t.toList then skills else []
  hints.take 3

/-! ## The cache -/

/-- How many packs the cache keeps. -/
def packCacheCap : ℕ := 64

/-- Sixty seconds, in nanoseconds. -/
def packCacheTtl : ℕ := 60 * 10 ^ 9

/-- A pack in the cache, with the arguments that it was made for. -/
structure PackCacheEntry where
  rendered : Text
  usedIds : List ℤ
  usedTokens : ℕ
  naiveTokens : ℕ
  savingsPct : F32
  packId : String
  /-- when it was stored, in nanoseconds -/
  inserted : ℕ
  /-- The call that stored it, with the budget it used. Nothing reads this. -/
  origin : PackArgs

/-- The packs by the key of their query and budget, the one used last in front. -/
abbrev PackCache := Lru UInt64 PackCacheEntry

/-- The two clocks a call reads. -/
structure Clock where
  /-- in nanoseconds -/
  instant : ℕ
  /-- of the wall clock, in seconds -/
  secs : ℤ

/-- Whether an entry is young enough to be used. -/
def PackCacheEntry.fresh (clock : Clock) (e : PackCacheEntry) : Bool :=
  clock.instant - e.inserted < packCacheTtl

/-- The state of the server process. -/
structure Server where
  cache : PackCache
  feedback : FeedbackState

/-- A server without packs. -/
def Server.new : Server := ⟨Lru.empty, ⟨[]⟩⟩

/-- What is reported of a block. -/
structure BlockInfo where
  id : ℤ
  kind : Kind
  tier : Tier
  tokens : ℕ
  deriving DecidableEq

/-- What `context_pack` returns. -/
structure PackResponse where
  packId : String
  context : Text
  usedIds : List ℤ
  droppedIds : List ℤ
  dedupedIds : List ℤ
  deltaSkippedIds : List ℤ
  usedTokens : ℕ
  budgetTokens : ℕ
  naiveTokens : ℕ
  savingsPct : F32
  noiseFiltered : ℕ
  cacheHit : Bool
  blocks : List BlockInfo
  /-- absent in an answer from the cache -/
  preloadSkills : Option (List String)
  deriving DecidableEq

/-! ## Recall -/

/-- The kind of a hit: what its meta says, or else its title. -/
def hitKind (title : Text) (meta_ : Json) : Kind :=
  let s := (((meta_.get "kind").or (meta_.get "type")).bind Json.asStr).map String.toList
  Kind.fromMeta (s.getD title)

section Tools

variable [H : ContextHost]

/-- Whether a hit is dropped, by the rules or by what was learned. -/
def dropAsNoise (h : Hit) : Bool := isNoise h || H.learnedNoise h

/-- A hit with a new id comes last; one with a known id takes the place of the other if its score is
higher. -/
def addHit (found : List Hit) (h : Hit) : List Hit :=
  if found.any (·.id = h.id) then
    found.map fun e => if e.id = h.id ∧ H.gt h.score e.score then h else e
  else found ++ [h]

/-- The hits for the query and for its terms, without noise, one for each id, and how much noise
there was. -/
def recallCandidates (db : H.Db) (query : Text) (k : ℕ) : Except String (List Hit × ℕ) := do
  let raw ← H.hybridHits db query k
  let terms := Agent.queryTerms query
  let termQuery := [' '].intercalate terms
  let extra :=
    if !terms.isEmpty && termQuery != query then (H.hybridHits db termQuery k).toOption.getD []
    else []
  let all := raw ++ extra
  .ok ((all.filter fun h => !dropAsNoise h).foldl addHit [], all.countP dropAsNoise)

/-- The share of the terms that a text has, as a part of a score. -/
def termOverlapBoost (terms : List Text) (text : Text) : H.S :=
  if terms.isEmpty then Score.centi 0
  else
    let lower := Text.toAsciiLowercase text
    H.overlap (terms.countP (Text.containsStr lower)) terms.length

/-- A hit as a candidate, unless it has no text or its kind is not asked for. -/
def candidateOf (db : H.Db) (args : PackArgs) (h : Hit) : Option (Candidate H.S) :=
  let text := h.text.toList
  let title := (h.title.getD "").toList
  let kind := hitKind title (h.meta_.getD .null)
  let terms := Agent.queryTerms args.query.toList
  if text.isEmpty || !args.wants kind then none
  else
    let score := Score.add (Score.add (Score.add (H.ofF64 h.score)
      ((H.learned db kind).getD (Score.centi 0))) (termOverlapBoost terms text))
      (termOverlapBoost terms title)
    some ⟨h.id, title, text, score, kind⟩

/-! ## Packing -/

variable [Unicode]

/-- The pack of a call without the cache, and how much noise was dropped. -/
def packFor (db : H.Db) (args : PackArgs) (budget : ℕ) (prevUsedIds : List ℤ) :
    Except String (Packed × ℕ) := do
  let (hits, noise) ← recallCandidates db args.query.toList args.k
  let cands := hits.filterMap (candidateOf db args)
  let opts : PackOptions :=
    { budgetTokens := budget, headerReserve := 64, prevUsedIds := prevUsedIds
      cacheStableOrder := args.cacheStableOrder }
  .ok (if prevUsedIds.isEmpty then pack opts cands else packDelta opts cands, noise)

/-- The ids of the pack with an id, if the cache has it. -/
def prevUsedIds (cache : PackCache) : Option String → List ℤ
  | none => []
  | some pid =>
    (((H.iter (cache.inner.map Prod.snd)).find? (·.packId = pid)).map
      PackCacheEntry.usedIds).getD []

/-- The text of a pack, with the share it saves. -/
def renderPacked (p : Packed) : Text :=
  render (H.showF32 (H.savingsPct p.naiveTokens p.usedTokens)) p

/-- The documents of a pack, in the order of its blocks. -/
def usedIds (p : Packed) : List ℤ := p.blocks.map PackedBlock.id

/-- The answer with a new pack. -/
def freshResponse (args : PackArgs) (p : Packed) (noise : ℕ) : PackResponse where
  packId := packId args.query (usedIds p)
  context := renderPacked p
  usedIds := usedIds p
  droppedIds := p.droppedIds
  dedupedIds := p.dedupedIds
  deltaSkippedIds := p.deltaSkippedIds
  usedTokens := p.usedTokens
  budgetTokens := p.budgetTokens
  naiveTokens := p.naiveTokens
  savingsPct := H.savingsPct p.naiveTokens p.usedTokens
  noiseFiltered := noise
  cacheHit := false
  blocks := p.blocks.map fun b => ⟨b.id, b.kind, b.tier, b.tokens⟩
  preloadSkills := some (skillPreloadHints args.query)

/-- The answer with a pack of the cache. -/
def cachedResponse (e : PackCacheEntry) (budget : ℕ) : PackResponse where
  packId := e.packId
  context := e.rendered
  usedIds := e.usedIds
  droppedIds := []
  dedupedIds := []
  deltaSkippedIds := []
  usedTokens := e.usedTokens
  budgetTokens := budget
  naiveTokens := e.naiveTokens
  savingsPct := e.savingsPct
  noiseFiltered := 0
  cacheHit := true
  blocks := []
  preloadSkills := none

/-- A pack as it is put into the cache. -/
def newEntry (args : PackArgs) (budget : ℕ) (p : Packed) (clock : Clock) : PackCacheEntry where
  rendered := renderPacked p
  usedIds := usedIds p
  usedTokens := p.usedTokens
  naiveTokens := p.naiveTokens
  savingsPct := H.savingsPct p.naiveTokens p.usedTokens
  packId := packId args.query (usedIds p)
  inserted := clock.instant
  origin := { args with budgetTokens := budget }

/-- The rest of a call that was not answered from the cache. -/
def packAnew (db : H.Db) (s : Server) (clock : Clock) (args : PackArgs) (cache : PackCache) :
    Server × Except String PackResponse :=
  let budget := s.feedback.budgetFactor args.budgetTokens
  match packFor db args budget (prevUsedIds cache args.prevPackId) with
  | .error e => ({ s with cache := cache }, .error e)
  | .ok (p, noise) =>
    let response := freshResponse args p noise
    let cache :=
      if args.cached then
        cache.put packCacheCap (H.key args.query budget) (newEntry args budget p clock)
      else cache
    (⟨cache, s.feedback.registerPack response.packId clock.secs⟩, .ok response)

/-- `context_pack`: from the cache if that is asked for and it has the pack, else a new one. -/
def contextPack (db : H.Db) (s : Server) (clock : Clock) (args : PackArgs) :
    Server × Except String PackResponse :=
  let budget := s.feedback.budgetFactor args.budgetTokens
  if args.cached then
    match s.cache.get (PackCacheEntry.fresh clock) (H.key args.query budget) with
    | (cache, some e) => ({ s with cache := cache }, .ok (cachedResponse e budget))
    | (cache, none) => packAnew db s clock args cache
  else packAnew db s clock args s.cache

/-- `context_feedback`, as far as the server process is concerned. -/
def contextFeedback (s : Server) (packId : String) : Server :=
  if packId = "" then s else { s with feedback := s.feedback.markFeedback packId }

/-! ## What a call does -/

section Cases

variable (db : H.Db) (s : Server) (clock : Clock) (args : PackArgs)

/-- The budget a call uses. -/
abbrev effectiveBudget : ℕ := s.feedback.budgetFactor args.budgetTokens

/-- The call is answered from the cache. -/
def FromCache : Prop :=
  ∃ e cache, args.cached = true ∧
    s.cache.lookup (H.key args.query (effectiveBudget s args)) = some e ∧
    e.fresh clock = true ∧ (∀ x ∈ cache.inner, x ∈ s.cache.inner) ∧
    contextPack db s clock args =
      ({ s with cache := cache }, .ok (cachedResponse e (effectiveBudget s args)))

/-- The daemon does not answer. -/
def Unanswered : Prop :=
  ∃ message cache, (∀ x ∈ cache.inner, x ∈ s.cache.inner) ∧
    contextPack db s clock args = ({ s with cache := cache }, .error message)

/-- A new pack is made, and stored if the call uses the cache. -/
def NewPack : Prop :=
  ∃ p noise cache,
    packFor db args (effectiveBudget s args) (prevUsedIds s.cache args.prevPackId) =
      .ok (p, noise) ∧
    (∀ x ∈ cache.inner, x ∈ s.cache.inner ∨ args.cached = true ∧
      x = (H.key args.query (effectiveBudget s args),
        newEntry args (effectiveBudget s args) p clock)) ∧
    contextPack db s clock args =
      (⟨cache, s.feedback.registerPack (freshResponse args p noise).packId clock.secs⟩,
        .ok (freshResponse args p noise))

theorem packAnew_cases {cache : PackCache} (hsub : ∀ x ∈ cache.inner, x ∈ s.cache.inner)
    (hprev : prevUsedIds cache args.prevPackId = prevUsedIds s.cache args.prevPackId)
    (heq : contextPack db s clock args = packAnew db s clock args cache) :
    Unanswered db s clock args ∨ NewPack db s clock args := by
  rw [packAnew] at heq
  rw [hprev] at heq
  simp only at heq
  cases hpack : packFor db args (effectiveBudget s args) (prevUsedIds s.cache args.prevPackId) with
  | error message =>
    rw [hpack] at heq
    exact .inl ⟨message, cache, hsub, heq⟩
  | ok r =>
    obtain ⟨p, noise⟩ := r
    rw [hpack] at heq
    refine .inr ⟨p, noise, _, hpack, ?_, heq⟩
    intro x hx
    split at hx
    next hcached =>
      rcases Lru.mem_put hx with hx | hx
      · exact .inr ⟨hcached, hx⟩
      · exact .inl (hsub x hx)
    next => exact .inl (hsub x hx)

/-- A call gets a pack from the cache, a new one, or no answer. -/
theorem contextPack_cases :
    FromCache db s clock args ∨ Unanswered db s clock args ∨ NewPack db s clock args := by
  cases hcached : args.cached with
  | false =>
    right
    apply packAnew_cases db s clock args (fun x hx => hx) rfl
    rw [contextPack, hcached]
    rfl
  | true =>
    have hprev := prevPackId_of_cached hcached
    let key := H.key args.query (effectiveBudget s args)
    have hsub : ∀ x ∈ (s.cache.get (PackCacheEntry.fresh clock) key).1.inner, x ∈ s.cache.inner :=
      fun x hx => Lru.mem_get hx
    match hget : s.cache.get (PackCacheEntry.fresh clock) key with
    | (cache, some e) =>
      left
      obtain ⟨hlookup, hfresh⟩ := Lru.get_eq_some (congrArg Prod.snd hget)
      rw [hget] at hsub
      refine ⟨e, cache, hcached, hlookup, hfresh, hsub, ?_⟩
      rw [contextPack, hcached, if_pos rfl, hget]
    | (cache, none) =>
      right
      rw [hget] at hsub
      apply packAnew_cases db s clock args hsub
      · rw [hprev]
        rfl
      · rw [contextPack, hcached, if_pos rfl, hget]

/-- What holds of the entries of the cache holds of them after a call, if it holds of a new one. -/
theorem contextPack_entries (P : PackCacheEntry → Prop) (hold : ∀ x ∈ s.cache.inner, P x.2)
    (hnew : ∀ p noise, args.cached = true →
      packFor db args (effectiveBudget s args) (prevUsedIds s.cache args.prevPackId) =
        .ok (p, noise) → P (newEntry args (effectiveBudget s args) p clock)) :
    ∀ x ∈ (contextPack db s clock args).1.cache.inner, P x.2 := by
  rcases contextPack_cases db s clock args with
    ⟨e, cache, -, -, -, hsub, heq⟩ | ⟨message, cache, hsub, heq⟩ |
      ⟨p, noise, cache, hpack, hadd, heq⟩
  · rw [heq]
    exact fun x hx => hold x (hsub x hx)
  · rw [heq]
    exact fun x hx => hold x (hsub x hx)
  · rw [heq]
    intro x hx
    rcases hadd x hx with hx | ⟨hcached, rfl⟩
    · exact hold x hx
    · exact hnew p noise hcached hpack

/-- A call that does not use the cache is answered with a new pack. -/
theorem contextPack_of_not_cached {db : H.Db} {s : Server} {clock : Clock} {args : PackArgs}
    {p : Packed} {noise : ℕ} (hcached : args.cached = false)
    (hpack : packFor db args (effectiveBudget s args) (prevUsedIds s.cache args.prevPackId) =
      .ok (p, noise)) :
    (contextPack db s clock args).2 = .ok (freshResponse args p noise) := by
  rw [contextPack, hcached, if_neg nofun, packAnew, hpack]

end Cases

end Tools

end ContextPack

end SynapseMemory
