import SynapseMemory.ContextPack
import SynapseMemory.Transition

/-!
# Is the pack cache transparent?

A pack from the cache should be the pack the same call would get without it. The key of an entry has
the query and the budget, and not the number of hits `k` or the kinds, so a call can be answered
with a pack that was made for another one. And the tools that write are dispatched in two places:
three of them return before the place where the cache is cleared.

The invariant is `Current`: every entry is the pack its own call would get now. A run keeps it as
long as no tool changes the database and leaves entries behind, and then an answer from the cache is
right when the call is the entry's own (`pack_cache_transparent`).
-/

namespace SynapseMemory

/-! ## The tools that write -/

namespace WriteTool

/-- The tool is dispatched by the first `match` of `tool_call`, and returns from it. -/
def returnsEarly : WriteTool → Bool
  | .contextRemember | .sessionIngest | .agentObserve => true
  | _ => false

/-- The tool is in the list of those that clear the cache. -/
def invalidates : WriteTool → Bool
  | .agentObserve => false
  | _ => true

end WriteTool

namespace ContextPack

open Proto Pack Transition

/-- The order of a pack without a previous one does not depend on the ordering flag. -/
theorem pack_cacheStable_eq {S : Type} [Score S] [Unicode] (opts : PackOptions) (stable : Bool)
    (cands : List (Candidate S)) (h : opts.prevUsedIds = []) :
    pack { opts with cacheStableOrder := stable } cands = pack opts cands := by
  simp [pack, packRanked, orderBlocks, available, h]

section Runs

variable [H : ContextHost]

/-- The server process and what its daemon has. -/
structure Process where
  db : H.Db
  server : Server

/-- A call of `tool_call` for a tool that writes. -/
def write (p : Process) (tool : WriteTool) (args : Json) : Process × Except String Json :=
  let r := H.perform p.db tool args
  if tool.returnsEarly then (⟨r.1, p.server⟩, r.2)
  else if r.2.isOk && tool.invalidates then (⟨r.1, { p.server with cache := Lru.empty }⟩, r.2)
  else (⟨r.1, p.server⟩, r.2)

/-- A call of a tool that reads or writes. -/
inductive Action where
  | contextPack (clock : Clock) (args : Json)
  | write (tool : WriteTool) (args : Json)

variable [Unicode]

/-- The process after a call. -/
def step (p : Process) : Action → Process
  | .contextPack clock args =>
    match packArgs args with
    | .error _ => p
    | .ok args => { p with server := (contextPack p.db p.server clock args).1 }
  | .write tool args => (write p tool args).1

/-- The call gets from the cache what it would get without it. -/
def Transparent (p : Process) : Action → Prop
  | .write _ _ => True
  | .contextPack clock args =>
    ∀ a, packArgs args = .ok a → ∀ r, (contextPack p.db p.server clock a).2 = .ok r →
      r.cacheHit = true →
      ∃ r', (contextPack p.db p.server clock { a with useCache := false }).2 = .ok r' ∧
        r'.context = r.context ∧ r'.usedIds = r.usedIds

/-- A pack is asked for again with the arguments it was made for, and a tool that does not clear the
cache does not change the database or finds the cache empty. -/
def Covered (p : Process) : Action → Prop
  | .contextPack clock args =>
    ∀ a, packArgs args = .ok a → a.cached = true → ∀ e,
      p.server.cache.lookup (H.key a.query (effectiveBudget p.server a)) = some e →
      e.fresh clock = true →
      e.origin.query = a.query ∧ e.origin.budgetTokens = effectiveBudget p.server a ∧
        e.origin.k = a.k ∧ e.origin.kinds = a.kinds
  | .write tool args =>
    let r := H.perform p.db tool args
    tool.returnsEarly = true ∨ r.2.isOk = false ∨ tool.invalidates = false →
      r.1 = p.db ∨ p.server.cache.inner = []

/-! ## Packs depend on the query, the number of hits, the kinds and the budget -/

theorem packFor_congr {db : H.Db} {args args' : PackArgs} (hquery : args.query = args'.query)
    (hk : args.k = args'.k) (hkinds : args.kinds = args'.kinds) (budget : ℕ) :
    packFor db args budget [] = packFor db args' budget [] := by
  have hwants : args.wants = args'.wants := by
    funext kind
    rw [PackArgs.wants, PackArgs.wants, hkinds]
  have hcand : candidateOf db args = candidateOf db args' := by
    funext h
    simp only [candidateOf, hquery, hwants]
  simp only [packFor, hquery, hk, hcand, List.isEmpty_nil, if_true]
  congr 1
  funext r
  rw [← pack_cacheStable_eq _ args'.cacheStableOrder _ rfl]

/-! ## The invariant -/

/-- The pack that the call of an entry would get now. -/
def Current (db : H.Db) (e : PackCacheEntry) : Prop :=
  ∃ p noise, packFor db e.origin e.origin.budgetTokens [] = .ok (p, noise) ∧
    e.rendered = renderPacked p ∧ e.usedIds = usedIds p

/-- Every entry of the cache has the pack that its call would get now. -/
def AllCurrent (p : Process) : Prop := ∀ x ∈ p.server.cache.inner, Current p.db x.2

theorem AllCurrent.contextPack {p : Process} (h : AllCurrent p) (clock : Clock) (args : PackArgs) :
    ∀ x ∈ (contextPack p.db p.server clock args).1.cache.inner, Current p.db x.2 := by
  apply contextPack_entries p.db p.server clock args (Current p.db) h
  intro q noise hcached hpack
  -- the new entry is the pack that was just made
  refine ⟨q, noise, ?_, rfl, rfl⟩
  rw [prevPackId_of_cached hcached] at hpack
  rw [← hpack]
  exact packFor_congr rfl rfl rfl _

/-- A write does, if it clears the cache or changes nothing that was packed. -/
theorem AllCurrent.write {p : Process} (h : AllCurrent p) {tool : WriteTool} {args : Json}
    (hcovered : Covered p (.write tool args)) : AllCurrent (write p tool args).1 := by
  -- what a call that leaves the cache alone has to keep
  have hkeep : tool.returnsEarly = true ∨ (H.perform p.db tool args).2.isOk = false ∨
      tool.invalidates = false →
      ∀ x ∈ p.server.cache.inner, Current (H.perform p.db tool args).1 x.2 := by
    intro hstays x hx
    rcases hcovered hstays with hdb | hnil
    · rw [hdb]
      exact h x hx
    · rw [hnil] at hx
      cases hx
  rw [ContextPack.write]
  simp only
  split
  next hearly => exact hkeep (.inl hearly)
  next =>
    split
    next => exact fun x hx => nomatch hx
    next hclear =>
      apply hkeep
      right
      rwa [Bool.and_eq_true, not_and_or, Bool.not_eq_true, Bool.not_eq_true] at hclear

theorem AllCurrent.step {p : Process} (h : AllCurrent p) {a : Action} (hcovered : Covered p a) :
    AllCurrent (step p a) := by
  cases a with
  | write tool args => exact h.write hcovered
  | contextPack clock args =>
    unfold ContextPack.step
    cases hargs : packArgs args with
    | error e => simpa only [hargs] using h
    | ok a =>
      simp only [hargs]
      exact h.contextPack clock a

/-- If all entries are current, the cache cannot be noticed. -/
theorem AllCurrent.transparent {p : Process} (h : AllCurrent p) {a : Action}
    (hcovered : Covered p a) : Transparent p a := by
  cases a with
  | write tool args => exact trivial
  | contextPack clock args =>
    intro a ha r hr hhit
    rcases contextPack_cases p.db p.server clock a with
      ⟨e, cache, hcached, hlookup, hfresh, -, heq⟩ | ⟨message, cache, -, heq⟩ |
        ⟨q, noise, cache, -, -, heq⟩
    · rw [heq] at hr
      obtain rfl := Except.ok.inj hr
      obtain ⟨hquery, hbudget, hk, hkinds⟩ := hcovered a ha hcached e hlookup hfresh
      obtain ⟨q, noise, hpack, hrendered, hused⟩ := h _ (Lru.mem_of_lookup hlookup)
      rw [hbudget, packFor_congr hquery hk hkinds] at hpack
      refine ⟨freshResponse a q noise, ?_, hrendered.symm, hused.symm⟩
      -- without the cache the call makes the pack of the entry
      have hprev := prevPackId_of_cached hcached
      apply contextPack_of_not_cached rfl
      change packFor p.db { a with useCache := false } _ (prevUsedIds _ a.prevPackId) = _
      rw [hprev, ← hpack]
      exact packFor_congr rfl rfl rfl _
    · rw [heq] at hr
      cases hr
    · rw [heq] at hr
      obtain rfl := Except.ok.inj hr
      cases hhit

end Runs

/-- The query of the runs below. The daemon has the fast search disabled, and looks for the word in
its store. -/
def askWriter : Action := .contextPack ⟨0, 0⟩ (.obj [("query", .str "writer")])

/-- A fact about it. -/
def tellWriter : Action :=
  .write .contextRemember (.obj [("text", .str "the daemon keeps one writer connection open")])

/-- The same fact, saved by a tool that clears the cache. -/
def saveWriter : Action :=
  .write .memorySave (.obj [("text", .str "the daemon keeps one writer connection open")])

/-- The documents of a store that no fact was written to. -/
def storedBefore : List Hit := [⟨1, none, none, "one writer at a time", 0, none, none⟩]

end ContextPack

end SynapseMemory
