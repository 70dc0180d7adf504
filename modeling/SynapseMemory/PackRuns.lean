import SynapseMemory.ContextPack
import SynapseMemory.Transition

/-!
# Chains of delta packs, and budgets over runs

Two laws about many calls of `context_pack`.

A caller that passes on the id of the pack it got last should not get a document twice. The ids of
the previous pack are looked up in the cache, but a delta pack is not stored there. So the second
call of a chain skips what the first one delivered, and the third finds nothing to skip.
`chain_never_repeats` is the law for chains whose calls find in the cache what they need.

The budget of a request is an upper bound for the pack. The feedback gate scales it down, and then
up to 512 at least, so with three open packs a request for less gets more than it asked for.
`budget_never_exceeded` is the law for runs in which no such request meets the gate.
-/

namespace SynapseMemory

open Proto Transition

namespace Pack

section Bounds

variable {S : Type} [Score S]

theorem rank_nodup {cands : List (Candidate S)} (hnd : (cands.map (·.id)).Nodup) :
    ((rank cands).map (·.id)).Nodup := by
  have hperm := (rank_perm cands).map Candidate.id
  rw [List.map_map] at hperm
  exact hperm.nodup_iff.mpr hnd

variable [Unicode]

theorem pack_used_le (opts : PackOptions) {cands : List (Candidate S)}
    (hnd : (cands.map (·.id)).Nodup) : (pack opts cands).usedTokens ≤ opts.budgetTokens :=
  (packRanked_accounted opts _ _ (rank_nodup hnd)).used_le

/-- The blocks of a pack are of its candidates. -/
theorem mem_pack_blocks (opts : PackOptions) {cands : List (Candidate S)}
    (hnd : (cands.map (·.id)).Nodup) {b : PackedBlock} (hb : b ∈ (pack opts cands).blocks) :
    b.id ∈ cands.map (·.id) := by
  have hcount := (packRanked_accounted opts (naiveTokens cands) _ (rank_nodup hnd)).count_ids b.id
  have hmem : b.id ∈ (pack opts cands).allIds := by
    apply List.mem_append_left
    apply List.mem_append_left
    exact List.mem_map_of_mem hb
  have hpos := List.count_pos_iff.mpr hmem
  have hrank : b.id ∈ (rank cands).map (·.id) := by
    by_contra hnot
    rw [if_neg hnot] at hcount
    change List.count b.id (pack opts cands).allIds = 0 at hcount
    omega
  have hperm := (rank_perm cands).map Candidate.id
  rw [List.map_map] at hperm
  exact hperm.mem_iff.mp hrank

end Bounds

end Pack

namespace ContextPack

open Pack

/-! ## Recall -/

section Recall

variable [H : ContextHost]

/-- A hit that is added keeps the ids apart. -/
theorem addHit_nodup {found : List Hit} (h : (found.map Hit.id).Nodup) (hit : Hit) :
    ((addHit found hit).map Hit.id).Nodup := by
  rw [addHit]
  split
  next =>
    -- a hit is replaced by one with the same id
    rw [List.map_map]
    have hid : (Hit.id ∘ fun e => if e.id = hit.id ∧ H.gt hit.score e.score = true then hit else e)
        = Hit.id := by
      funext e
      rw [Function.comp_apply]
      split
      next heq => exact heq.1.symm
      next => rfl
    rwa [hid]
  next hnew =>
    rw [List.map_append]
    refine h.append (List.nodup_singleton _) ?_
    intro id hmem hid
    obtain ⟨e, he, rfl⟩ := List.mem_map.mp hmem
    apply hnew
    exact List.any_eq_true.mpr ⟨e, he, decide_eq_true (List.mem_singleton.mp hid)⟩

theorem foldl_addHit_nodup {found : List Hit} (h : (found.map Hit.id).Nodup) (hits : List Hit) :
    ((hits.foldl addHit found).map Hit.id).Nodup := by
  induction hits generalizing found with
  | nil => exact h
  | cons hit hits ih => exact ih (addHit_nodup h hit)

/-- Each document is recalled once. -/
theorem recall_nodup {db : H.Db} {query : Text} {k noise : ℕ} {hits : List Hit}
    (h : recallCandidates db query k = .ok (hits, noise)) : (hits.map Hit.id).Nodup := by
  obtain ⟨raw, -, h⟩ := bind_eq_ok.mp h
  cases h
  have hnil : (([] : List Hit).map Hit.id).Nodup := List.nodup_nil
  exact foldl_addHit_nodup hnil _

theorem candidateOf_id {db : H.Db} {args : PackArgs} {hit : Hit} {c : Candidate H.S}
    (h : candidateOf db args hit = some c) : c.id = hit.id := by
  rw [candidateOf] at h
  simp only at h
  split at h
  next => cases h
  next =>
    cases h
    rfl

/-- The candidates of a call are among the hits, each document once. -/
theorem candidates_ids (db : H.Db) (args : PackArgs) (hits : List Hit) :
    ((hits.filterMap (candidateOf db args)).map (·.id)).Sublist (hits.map Hit.id) := by
  induction hits with
  | nil => exact List.Sublist.slnil
  | cons hit hits ih =>
    cases h : candidateOf db args hit with
    | none =>
      rw [List.filterMap_cons_none h]
      exact ih.cons _
    | some c =>
      rw [List.filterMap_cons_some h, List.map_cons, List.map_cons, candidateOf_id h]
      exact ih.cons_cons _

variable [Unicode]

/-- The search finds the document for the call. -/
def Recalls (db : H.Db) (args : PackArgs) (id : ℤ) : Prop :=
  ∃ hits noise, recallCandidates db args.query.toList args.k = .ok (hits, noise) ∧
    id ∈ hits.map Hit.id

/-- What a new pack is: within its budget, of recalled documents, and without those of the previous
pack. -/
theorem packFor_spec {db : H.Db} {args : PackArgs} {budget : ℕ} {prev : List ℤ} {p : Packed}
    {noise : ℕ} (h : packFor db args budget prev = .ok (p, noise)) :
    p.usedTokens ≤ budget ∧ ∀ id ∈ usedIds p, Recalls db args id ∧ id ∉ prev := by
  obtain ⟨⟨hits, noise'⟩, hrecall, h⟩ := bind_eq_ok.mp h
  obtain ⟨hpacked, rfl⟩ := Prod.mk.inj (Except.ok.inj h)
  have hsub := candidates_ids db args hits
  have hnd := (recall_nodup hrecall).sublist hsub
  have hrecalls : ∀ id ∈ (hits.filterMap (candidateOf db args)).map (·.id), Recalls db args id :=
    fun id hid => ⟨hits, noise', hrecall, hsub.subset hid⟩
  split at hpacked
  next hnil =>
    subst hpacked
    refine ⟨pack_used_le _ hnd, fun id hid => ?_⟩
    obtain ⟨b, hb, rfl⟩ := List.mem_map.mp hid
    refine ⟨hrecalls _ (mem_pack_blocks _ hnd hb), ?_⟩
    rw [List.isEmpty_iff.mp hnil]
    exact List.not_mem_nil
  next =>
    subst hpacked
    let kept := (hits.filterMap (candidateOf db args)).filter fun c => !prev.contains c.id
    have hkept : (kept.map (·.id)).Sublist ((hits.filterMap (candidateOf db args)).map (·.id)) :=
      List.filter_sublist.map Candidate.id
    refine ⟨pack_used_le _ (hnd.sublist hkept), fun id hid => ?_⟩
    obtain ⟨b, hb, rfl⟩ := List.mem_map.mp hid
    have hmem : b.id ∈ kept.map (·.id) := mem_pack_blocks
      { budgetTokens := budget, headerReserve := 64, prevUsedIds := [], cacheStableOrder := false }
      (hnd.sublist hkept) hb
    refine ⟨hrecalls _ (hkept.subset hmem), ?_⟩
    obtain ⟨c, hc, hid⟩ := List.mem_map.mp hmem
    have hnot := (List.mem_filter.mp hc).2
    rw [← hid]
    simpa using hnot

end Recall

/-! ## Chains -/

section Chain

variable [H : ContextHost]

/-- A chain of calls: the server, the id of the pack that was returned last, and the documents that
were delivered so far. -/
structure Chain where
  server : Server
  prev : Option String
  delivered : List ℤ

/-- No call yet. -/
def Chain.start (s : Server) : Chain := ⟨s, none, []⟩

/-- The arguments of the next call: from the second call on, the previous pack is passed. -/
def Chain.args (c : Chain) (args : PackArgs) : PackArgs :=
  match c.prev with
  | none => args
  | some pid => { args with prevPackId := some pid }

theorem Chain.recalls_args {db : H.Db} {c : Chain} {args : PackArgs} {id : ℤ} :
    Recalls db (c.args args) id ↔ Recalls db args id := by
  rw [Chain.args]
  split
  next => exact Iff.rfl
  next => exact Iff.rfl

variable [Unicode]

/-- The next call. A chain ends with a call that fails. -/
def Chain.next (db : H.Db) (c : Chain) (call : Clock × PackArgs) : Option Chain :=
  match contextPack db c.server call.1 (c.args call.2) with
  | (s, .ok r) => some ⟨s, some r.packId, c.delivered ++ r.usedIds⟩
  | (_, .error _) => none

/-- The call delivers nothing that was delivered before. -/
def NoRepeat (db : H.Db) (c : Chain) (call : Clock × PackArgs) : Prop :=
  ∀ r, (contextPack db c.server call.1 (c.args call.2)).2 = .ok r →
    ∀ id ∈ c.delivered, id ∉ r.usedIds

/-- The cache has the previous pack, with every document that was delivered before and is found
again. -/
def Resolved (db : H.Db) (c : Chain) (call : Clock × PackArgs) : Prop :=
  ∀ id ∈ c.delivered, Recalls db call.2 id →
    id ∈ prevUsedIds c.server.cache (c.args call.2).prevPackId

/-- Nothing was delivered before the first call. -/
def Chain.Begun (c : Chain) : Prop := c.prev = none → c.delivered = []

theorem Chain.Begun.next {db : H.Db} {c c' : Chain} {call : Clock × PackArgs}
    (h : c.next db call = some c') : c'.Begun := by
  rw [Chain.next] at h
  split at h
  next =>
    cases h
    exact nofun
  next => cases h

/-- A call repeats nothing if the cache knows what was delivered. -/
theorem Chain.Begun.noRepeat {db : H.Db} {c : Chain} (hbegun : c.Begun)
    {call : Clock × PackArgs} (hresolved : Resolved db c call) : NoRepeat db c call := by
  intro r hr id hid hused
  rcases contextPack_cases db c.server call.1 (c.args call.2) with
    ⟨e, cache, hcached, -, -, -, -⟩ | ⟨message, cache, -, heq⟩ | ⟨p, noise, cache, hpack, -, heq⟩
  · -- only the first call can be answered from the cache
    have hnone := prevPackId_of_cached hcached
    have hprev : c.prev = none := by
      rw [Chain.args] at hnone
      split at hnone
      next h => exact h
      next => cases hnone
    rw [hbegun hprev] at hid
    cases hid
  · rw [heq] at hr
    cases hr
  · rw [heq] at hr
    obtain rfl := Except.ok.inj hr
    obtain ⟨hrecalls, hskipped⟩ := (packFor_spec hpack).2 id hused
    exact hskipped (hresolved id hid (Chain.recalls_args.mp hrecalls))

/-- In every chain whose calls find in the cache the documents that were delivered before and are
found again, no document is delivered twice. -/
theorem chain_never_repeats (db : H.Db) (s : Server) (calls : List (Clock × PackArgs))
    (hmeets : Meets (Chain.next db) (Resolved db) (Chain.start s) calls) :
    Meets (Chain.next db) (NoRepeat db) (Chain.start s) calls := by
  refine Meets.of_invariant Chain.Begun ?_ ?_ hmeets ?_
  · exact fun c call c' _ _ hnext => Chain.Begun.next hnext
  · exact fun c call hbegun hresolved => hbegun.noRepeat hresolved
  · exact fun _ => rfl

end Chain

/-- One document. -/
def oneHit : List Hit :=
  [⟨1, none, none, "the daemon keeps one writer connection open", 0, none, none⟩]

/-- A call of the chains below. -/
def chainCall : Clock × PackArgs := (⟨0, 0⟩, ⟨"writer", 4000, 32, none, false, true, none⟩)

/-- The second call of a chain skips what the first one delivered. -/
theorem two_calls_never_repeat :
    let _ := ContextHost.list
    let _ := Unicode.asciiOnly
    Meets (Chain.next oneHit) (NoRepeat oneHit) (Chain.start Server.new)
      [chainCall, chainCall] := by
  intro _ _
  apply chain_never_repeats
  refine ⟨nofun, fun c hc => ⟨?_, fun _ _ => trivial⟩⟩
  have hcache : ∀ c ∈ Chain.next (H := ContextHost.list) oneHit (Chain.start Server.new) chainCall,
      c.delivered = [1] ∧ prevUsedIds c.server.cache (c.args chainCall.2).prevPackId = [1] := by
    decide +kernel
  obtain ⟨hdelivered, hprev⟩ := hcache c hc
  intro id hid _
  rw [hprev, ← hdelivered]
  exact hid

/-- The third call delivers it again. -/
theorem third_call_repeats :
    let _ := ContextHost.list
    let _ := Unicode.asciiOnly
    ¬Meets (Chain.next oneHit) (NoRepeat oneHit) (Chain.start Server.new)
      [chainCall, chainCall, chainCall] := by
  intro _ _ h
  change Meets _ _ _ ([chainCall, chainCall] ++ [chainCall]) at h
  let r := run (Chain.next (H := ContextHost.list) oneHit) (Chain.start Server.new)
    [chainCall, chainCall]
  obtain ⟨c, hrun⟩ : ∃ c, r = some c := Option.isSome_iff_exists.mp (by decide +kernel)
  have hlast : NoRepeat oneHit c chainCall := (h.of_append hrun).1
  have hagain : ∀ c ∈ r, 1 ∈ c.delivered ∧
      ((contextPack (H := ContextHost.list) oneHit c.server chainCall.1
        (c.args chainCall.2)).2.toOption.map PackResponse.usedIds) = some [1] := by
    decide +kernel
  obtain ⟨hone, hused⟩ := hagain c hrun
  obtain ⟨resp, hresp, hids⟩ := Option.map_eq_some_iff.mp hused
  apply hlast resp (toOption_eq_some.mp hresp) 1 hone
  rw [hids]
  exact List.mem_singleton_self 1

/-! ## Budgets -/

/-- The gate never raises a budget of 512 or more, and always raises a smaller one when it is
on. -/
theorem budgetFactor_le_iff {f : FeedbackState} {requested : ℕ} :
    f.budgetFactor requested ≤ requested ↔ 512 ≤ requested ∨ f.openPacks < 3 := by
  have htwo := Nat.mod_le (requested * 2) (2 ^ 64)
  have hthree := Nat.mod_le (requested * 3) (2 ^ 64)
  rw [FeedbackState.budgetFactor]
  split
  next => omega
  next =>
    split
    next => omega
    next => omega

section Budget

variable [H : ContextHost]

/-- A call of one of the two tools; a pack is made from whatever the daemon has at the time. -/
inductive GateCall where
  | contextPack (db : H.Db) (clock : Clock) (args : Json)
  | contextFeedback (packId : String)

variable [Unicode]

/-- The server after a call. -/
def gate (s : Server) : GateCall → Server
  | .contextFeedback packId => contextFeedback s packId
  | .contextPack db clock args =>
    match packArgs args with
    | .error _ => s
    | .ok args => (contextPack db s clock args).1

/-- The pack is within the requested budget, and the gate did not raise it. -/
def WithinRequest (s : Server) : GateCall → Prop
  | .contextFeedback _ => True
  | .contextPack db clock args =>
    ∀ a, packArgs args = .ok a → effectiveBudget s a ≤ a.budgetTokens ∧
      ∀ r, (contextPack db s clock a).2 = .ok r → r.usedTokens ≤ a.budgetTokens

/-- The request is for 512 tokens or more, or the gate is off; and the cache has no pack for another
budget under the key of the call. -/
def Ungated (s : Server) : GateCall → Prop
  | .contextFeedback _ => True
  | .contextPack _ clock args =>
    ∀ a, packArgs args = .ok a → (512 ≤ a.budgetTokens ∨ s.feedback.openPacks < 3) ∧
      ∀ e, s.cache.lookup (H.key a.query (effectiveBudget s a)) = some e →
        e.fresh clock = true → e.origin.budgetTokens = effectiveBudget s a

instance (s : Server) : (c : GateCall) → Decidable (Ungated s c)
  | .contextFeedback _ => isTrue trivial
  | .contextPack _ clock args =>
    decidable_of_iff (∀ a ∈ (packArgs args).toOption,
      (512 ≤ a.budgetTokens ∨ s.feedback.openPacks < 3) ∧
        ∀ e ∈ s.cache.lookup (H.key a.query (effectiveBudget s a)),
          e.fresh clock = true → e.origin.budgetTokens = effectiveBudget s a) <| by
      simp only [Option.mem_def, toOption_eq_some, Ungated]

/-- Every pack in the cache is within the budget it was made for. -/
def EntriesFit (s : Server) : Prop :=
  ∀ x ∈ s.cache.inner, x.2.usedTokens ≤ x.2.origin.budgetTokens

/-- A pack that is stored fits its entry. -/
theorem EntriesFit.contextPack {s : Server} (h : EntriesFit s) (db : H.Db) (clock : Clock)
    (args : PackArgs) : EntriesFit (contextPack db s clock args).1 := by
  apply contextPack_entries db s clock args (fun e => e.usedTokens ≤ e.origin.budgetTokens) h
  intro p noise _ hpack
  exact (packFor_spec hpack).1

/-- So do those after any call. -/
theorem EntriesFit.gate {s : Server} (h : EntriesFit s) (c : GateCall) : EntriesFit (gate s c) := by
  cases c with
  | contextFeedback packId =>
    unfold ContextPack.gate contextFeedback
    simp only
    split
    next => exact h
    next => exact h
  | contextPack db clock args =>
    unfold ContextPack.gate
    simp only
    split
    next => exact h
    next a _ => exact h.contextPack db clock a

/-- If the entries fit and the gate is off, an answer is within its request. -/
theorem EntriesFit.withinRequest {s : Server} (h : EntriesFit s) {c : GateCall}
    (hungated : Ungated s c) : WithinRequest s c := by
  cases c with
  | contextFeedback packId => exact trivial
  | contextPack db clock args =>
    intro a ha
    obtain ⟨hgate, hkey⟩ := hungated a ha
    have hle : effectiveBudget s a ≤ a.budgetTokens := budgetFactor_le_iff.mpr hgate
    refine ⟨hle, fun r hr => ?_⟩
    rcases contextPack_cases db s clock a with
      ⟨e, cache, -, hlookup, hfresh, -, heq⟩ | ⟨message, cache, -, heq⟩ |
        ⟨p, noise, cache, hpack, -, heq⟩
    · rw [heq] at hr
      obtain rfl := Except.ok.inj hr
      have hfits := h _ (Lru.mem_of_lookup hlookup)
      rw [hkey e hlookup hfresh] at hfits
      exact hfits.trans hle
    · rw [heq] at hr
      cases hr
    · rw [heq] at hr
      obtain rfl := Except.ok.inj hr
      exact (packFor_spec hpack).1.trans hle

/-- In every run in which no request for less than 512 tokens is made while three packs are open,
and no two budgets share a key of the cache, every pack is within the budget its caller asked
for. -/
theorem budget_never_exceeded (calls : List GateCall)
    (hmeets : Meets (fun s c => some (gate s c)) Ungated Server.new calls) :
    Meets (fun s c => some (gate s c)) WithinRequest Server.new calls := by
  refine Meets.of_invariant EntriesFit ?_ ?_ hmeets ?_
  · intro s c s' h _ heq
    obtain rfl := Option.some.inj heq
    exact h.gate c
  · exact fun s c h hungated => h.withinRequest hungated
  · exact fun x hx => nomatch hx

end Budget

/-- Arguments with a query and a budget. -/
def budgetArgs (query : String) (budget : ℤ) : Json :=
  .obj [("query", .str query), ("budget_tokens", .int budget)]

/-- A request for a pack of one document. -/
def askBudget (query : String) (budget : ℤ) : GateCall (H := ContextHost.list) :=
  @GateCall.contextPack .list oneHit ⟨0, 0⟩ (budgetArgs query budget)

/-- A small request before the gate is on, and the same from the cache; larger ones while it is on,
the second of them from the cache; and a small one again once a pack was used. -/
def gatedCalls : List (GateCall (H := ContextHost.list)) :=
  [askBudget "writer" 100, askBudget "writer" 100, askBudget "daemon" 100,
    askBudget "connection" 100, askBudget "writer" 600, askBudget "writer" 600,
    @GateCall.contextFeedback .list (packId "writer" [1]), askBudget "one" 100]

theorem gatedCalls_ungated : Meets (fun s c => some (@gate .list .asciiOnly s c))
    (@Ungated .list) Server.new gatedCalls := by
  decide +kernel

/-- The gate is on after four of these calls, and all get at most what they asked for. -/
theorem gatedCalls_within_request :
    let _ := ContextHost.list
    let _ := Unicode.asciiOnly
    ((run (fun s c => some (gate s c)) Server.new (gatedCalls.take 4)).map
        fun s => s.feedback.openPacks) = some 3 ∧
      Meets (fun s c => some (gate s c)) WithinRequest Server.new gatedCalls := by
  intro _ _
  exact ⟨by decide +kernel, budget_never_exceeded gatedCalls gatedCalls_ungated⟩

/-- A document of 115 tokens. -/
def longHit : List Hit :=
  [⟨1, none, none, String.ofList (List.replicate 50 ['a', '.']).flatten, 0, none, none⟩]

/-- With three open packs, a request for 100 tokens gets 115. -/
theorem gate_raises_small_request :
    let _ := ContextHost.list
    let _ := Unicode.asciiOnly
    ¬Meets (fun s c => some (gate s c)) WithinRequest Server.new
      [.contextPack [] ⟨0, 0⟩ (budgetArgs "a" 100), .contextPack [] ⟨0, 0⟩ (budgetArgs "b" 100),
        .contextPack [] ⟨0, 0⟩ (budgetArgs "c" 100),
        .contextPack longHit ⟨0, 0⟩ (budgetArgs "d" 100)] := by
  intro _ _ h
  obtain ⟨-, h⟩ := meets_total_cons.mp h
  obtain ⟨-, h⟩ := meets_total_cons.mp h
  obtain ⟨-, h⟩ := meets_total_cons.mp h
  let a : PackArgs := ⟨"d", 100, 32, none, false, true, none⟩
  have hused := (h.1 a rfl).2
  have hmore : ((contextPack (H := ContextHost.list) longHit
      (gate (H := ContextHost.list) (gate (H := ContextHost.list) (gate (H := ContextHost.list)
        Server.new (.contextPack [] ⟨0, 0⟩ (budgetArgs "a" 100)))
        (.contextPack [] ⟨0, 0⟩ (budgetArgs "b" 100)))
        (.contextPack [] ⟨0, 0⟩ (budgetArgs "c" 100))) ⟨0, 0⟩ a).2.toOption.map
      PackResponse.usedTokens) = some 115 := by
    decide +kernel
  obtain ⟨r, hr, htokens⟩ := Option.map_eq_some_iff.mp hmore
  have hle := hused r (toOption_eq_some.mp hr)
  rw [htokens] at hle
  exact absurd hle (by decide)

end ContextPack

end SynapseMemory
