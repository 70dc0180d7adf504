import SynapseMemory.LockOrder
import SynapseMemory.Proto

/-!
# The locks of the daemon

Every request is served by `dispatch`, which takes the daemon's locks through guards. A guard
bound by `let` lives to the end of its block, and a guard created in the scrutinee of a `match`
lives to the end of the match: so `Stats`, `Merge` and `Delete` hold the store over their arms,
and `Stats` takes `sql_conn` and `stats_cache` under it. The model keeps the locks of each
function and what its branches depend on; everything else is an outcome of the environment.

`audit` takes the store. The `Ok` arms of `Merge` and `Delete` call it under the store guard of
their own scrutinee, and the mutex is not reentrant. `dispatch_locks_iff` says that nothing else
goes wrong: all other nestings go up in one order, so requests that avoid these two arms never
wait for each other in a circle. -/

namespace SynapseMemory

namespace Daemon

open LockOrder LockOrder.Scoped Proto

/-- The locks of `State`. -/
inductive Lock where
  | store
  | ndarrayIdx
  | embedder
  | embedderInit
  | sqlConn
  | sqlDeadline
  | queryCache
  | dbSeen
  | statsCache
  | embedCache
  deriving DecidableEq

/-- A run of a daemon function: the locks it took, and its result unless it returned an error. -/
structure Locking (α : Type) where
  locks : Scoped Lock
  value : Option α

namespace Locking

variable {α β : Type}

/-- An error ends the function, as `?` does. -/
protected def bind (x : Locking α) (f : α → Locking β) : Locking β :=
  match x.value with
  | none => ⟨x.locks, none⟩
  | some a => ⟨x.locks ++ (f a).locks, (f a).value⟩

instance : Monad Locking where
  pure a := ⟨done, some a⟩
  bind := Locking.bind

/-- Go on when a fallible call succeeded. -/
def check (ok : Bool) : Locking Unit := ⟨done, if ok then some () else none⟩

/-- Run a body under the guard of a mutex. -/
def withLock (l : Lock) (body : Locking α) : Locking α := ⟨locked l body.locks, body.value⟩

/-- Run a body under a read guard. -/
def withRead (l : Lock) (body : Locking α) : Locking α := ⟨reading l body.locks, body.value⟩

/-- The result of a call as a value. -/
def attempt (x : Locking α) : Locking (Option α) := ⟨x.locks, some x.value⟩

/-- A statement under an `if`. -/
def when_ (c : Bool) (x : Locking Unit) : Locking Unit := if c then x else pure ()

/-- A loop over a list. -/
def forEach {γ : Type} (xs : List γ) (body : γ → Locking Unit) : Locking Unit :=
  ⟨concat (xs.map fun x => (body x).locks), some ()⟩

end Locking

open Locking

/-! ## What the environment decides -/

/-- How `ensure_embedder` finds the embedder: loaded, loaded by the task it waited for, loaded
by itself, or its initialisation failed. -/
inductive Ensured where
  | ready
  | readyAfterWait
  | loaded
  | initFailed
  deriving DecidableEq

/-- A statement on `sql_conn`: how often its progress handler ran, and whether it succeeded. -/
structure SqlRun where
  ticks : ℕ
  ok : Bool

/-- What `fast_lex_from_state` finds: no match query, no connection, or the result of the
statement with whether it had rows. -/
inductive FastLex where
  | noQuery
  | noConn
  | ran (run : SqlRun) (isEmpty : Bool)

/-- What `fast_vec_from_state` finds: no index or an empty one, no pairs, or the result of
hydrating the pairs with whether any was left. -/
inductive FastVec where
  | cold
  | noPairs
  | hydrated (run : SqlRun) (isEmpty : Bool)

/-- The environment of one `search`. -/
structure SearchEnv where
  fingerprintChanged : Bool
  cacheHit : Bool
  embeddingCached : Bool
  ensured : Ensured
  embedOk : Bool
  fastDisabled : Bool
  lex : FastLex
  vec : FastVec
  storeOk : Bool

/-- The environment of one request; `storeOk` is the outcome of its store call. -/
structure Env where
  boundsOk : PutReq → Bool
  ensured : Ensured
  embedOk : Bool
  storeOk : Bool
  /-- The environment of each search that the request runs. -/
  search : ℕ → SearchEnv
  scopeKeyOk : String → Bool
  scopedLex : SqlRun
  /-- Fewer candidates than the limit. -/
  scopedShort : Bool
  globalEmpty : Bool
  scopedFilter : SqlRun
  statsFresh : Bool
  maxDocId : SqlRun
  snapPathOk : String → Bool
  snapOk : Bool
  /-- The `ann-usearch` feature. -/
  annUsearch : Bool
  keyOk : List UInt8 → Bool
  indexCold : Bool
  pairsEmpty : Bool
  hydrate : SqlRun
  tenantExists : String → Bool
  tenant : SqlRun
  sql : SqlRun

/-! ## The functions of the daemon -/

/-- The first check takes `embedder` alone; the load holds `embedder_init` over two more. -/
def ensureEmbedder (e : Ensured) : Locking Unit := do
  withLock .embedder (pure ())
  match e with
  | .ready => pure ()
  | .readyAfterWait => withLock .embedderInit (withLock .embedder (pure ()))
  | .loaded => withLock .embedderInit do
      withLock .embedder (pure ())
      withLock .embedder (pure ())
  | .initFailed => withLock .embedderInit do
      withLock .embedder (pure ())
      check false

/-- A statement under the guard of `sql_conn`; its progress handler reads the deadline. -/
def sqlStatement (run : SqlRun) : Locking Unit :=
  withLock .sqlConn do
    forEach (List.range run.ticks) fun _ => withLock .sqlDeadline (pure ())
    check run.ok

/-- `audit` locks the store. -/
def audit : Locking Unit := withLock .store (pure ())

/-- `clear_query_cache` -/
def clearQueryCache : Locking Unit := withLock .queryCache (pure ())

/-- `adjust_stats_cache_after_put`, and the same after a batch. -/
def adjustStatsCache : Locking Unit := withLock .statsCache (pure ())

/-- `update_lifted_ndarray` -/
def updateLiftedNdarray : Locking Unit := withLock .ndarrayIdx (pure ())

/-- `current_max_doc_id` is a statement on the connection for reading. -/
def currentMaxDocId (env : Env) : Locking Unit := sqlStatement env.maxDocId

/-- The embedder is started if it is not there, and then locked. -/
def embedOne (env : Env) : Locking Unit := do
  ensureEmbedder env.ensured
  withLock .embedder (check env.embedOk)

/-- Whether the document gets an embedding: the client's, one made here, or none. -/
def putEmbedding (env : Env) (p : PutReq) : Locking Bool :=
  if p.embedding.isSome then pure true
  else if p.embed then do
    embedOne env
    pure true
  else pure false

/-- `put_one` -/
def putOne (env : Env) (p : PutReq) : Locking Unit := do
  check (env.boundsOk p)
  let hasEmbedding ← putEmbedding env p
  withLock .store (check env.storeOk)
  adjustStatsCache
  when_ hasEmbedding updateLiftedNdarray
  clearQueryCache

/-- `put_batch` -/
def putBatch (env : Env) (batch : List PutReq) : Locking Unit := do
  check (batch.all env.boundsOk)
  when_ (batch.any fun r => r.embed && r.embedding.isNone) (embedOne env)
  withLock .store (check env.storeOk)
  adjustStatsCache
  forEach (batch.filter fun r => r.embedding.isSome || r.embed) fun _ => updateLiftedNdarray
  clearQueryCache

/-- Whether the cache answers the search. -/
def getCachedHits (env : SearchEnv) : Locking Bool := do
  withLock .dbSeen (pure ())
  withLock .queryCache (pure ())
  pure (!env.fingerprintChanged && env.cacheHit)

/-- `put_cached_hits` -/
def putCachedHits : Locking Unit := withLock .queryCache (pure ())

/-- `get_cached_embedding` -/
def getCachedEmbedding (env : SearchEnv) : Locking Bool := do
  withLock .embedCache (pure ())
  pure env.embeddingCached

/-- `put_cached_embedding` -/
def putCachedEmbedding : Locking Unit := withLock .embedCache (pure ())

/-- The hits found, with whether there were none; no result at all means the slow path. -/
def fastLexFromState : FastLex → Locking (Option Bool)
  | .noQuery => pure (some true)
  | .noConn => do
    withLock .sqlConn (pure ())
    pure none
  | .ran run isEmpty => do
    sqlStatement run
    pure (some isEmpty)

/-- `fast_vec_from_state`, in each state that the index can be in. -/
def fastVecFromState : FastVec → Locking (Option Bool)
  | .cold => do
    withRead .ndarrayIdx (pure ())
    pure none
  | .noPairs => do
    withRead .ndarrayIdx (pure ())
    pure none
  | .hydrated run isEmpty => do
    withRead .ndarrayIdx (pure ())
    sqlStatement run
    pure (some isEmpty)

/-- Whether the fast path found a result. -/
def fastSearchFromState (env : SearchEnv) (mode : SearchMode) (hasEmb : Bool) : Locking Bool :=
  if env.fastDisabled then pure false
  else match mode with
    | .lex => do
      let lex ← fastLexFromState env.lex
      pure lex.isSome
    | .vec =>
      if hasEmb then do
        let vec ← fastVecFromState env.vec
        pure vec.isSome
      else pure false
    | .hybrid =>
      if hasEmb then do
        let lex ← fastLexFromState env.lex
        let vec ← fastVecFromState env.vec
        pure (!(lex.getD true && vec.getD true))
      else pure false

/-- Embed the query unless its embedding is cached; the embedder guard lives over the insert
into the cache. -/
def queryEmbedding (env : SearchEnv) : Locking Unit := do
  let cached ← getCachedEmbedding env
  if cached then pure ()
  else do
    ensureEmbedder env.ensured
    withLock .embedder do
      check env.embedOk
      putCachedEmbedding

/-- `search`: what is not in the cache is looked for by the fast search first. -/
def search (env : SearchEnv) (mode : SearchMode) (embedQuery : Bool) : Locking Unit := do
  let hit ← getCachedHits env
  if hit then pure ()
  else do
    when_ embedQuery (queryEmbedding env)
    let found ← fastSearchFromState env mode embedQuery
    if found then do
      -- the query log
      withLock .store (pure ())
      putCachedHits
    else do
      withLock .store (check env.storeOk)
      putCachedHits

/-- `search_scoped`: all documents are searched only if the scope has too few. -/
def searchScoped (env : Env) (mode : SearchMode) (embedQuery : Bool) (scopeKey : String) :
    Locking Unit := do
  check (env.scopeKeyOk scopeKey)
  sqlStatement env.scopedLex
  when_ (env.scopedShort && mode != .lex) do
    search (env.search 0) mode embedQuery
    when_ (!env.globalEmpty) (sqlStatement env.scopedFilter)

/-- The locks of one request; no value means an `Err` response. -/
def dispatch (env : Env) : Request → Locking Unit
  | .ping => pure ()
  | .put p => do
    putOne env p
    audit
  | .putBatch batch => do
    putBatch env batch
    withLock .store (pure ())
  | .search mode _ _ embedQuery => search (env.search 0) mode embedQuery
  | .searchScoped mode _ _ embedQuery scopeKey _ _ =>
    searchScoped env mode embedQuery (scopeKey.getD "scope")
  | .stats => do
    withLock .statsCache (pure ())
    if env.statsFresh then pure ()
    else
      withLock .store do
        check env.storeOk
        let _ ← attempt (currentMaxDocId env)
        withLock .statsCache (pure ())
  | .snap out _ => do
    check (env.snapPathOk out)
    check env.snapOk
  | .shutdown => if env.annUsearch then withLock .store (pure ()) else pure ()
  | .merge _ _ =>
    withLock .store do
      check env.storeOk
      audit
      clearQueryCache
  | .delete _ =>
    withLock .store do
      check env.storeOk
      audit
      clearQueryCache
  | .timeline _ _ => withLock .store (check env.storeOk)
  | .verify _ vk => do
    check (vk.length == 32)
    check (env.keyOk vk)
    withLock .store (check env.storeOk)
  | .embed _ _ => embedOne env
  | .snapMerge snapshotPath outPath _ => do
    check (env.snapPathOk snapshotPath)
    check (env.snapPathOk outPath)
    check env.snapOk
    audit
  | .searchVec _ _ => do
    withRead .ndarrayIdx (pure ())
    if env.indexCold then withLock .store (check env.storeOk)
    else if env.pairsEmpty then pure ()
    else sqlStatement env.hydrate
  | .rerank _ _ _ => pure ()
  | .batchSearch queries =>
    forEach queries.zipIdx fun item => do
      let _ ← attempt (search (env.search item.2) item.1.mode item.1.embedQuery)
  | .useTenant name => do
    check (name.toList.all fun c => c.isAlphanum || c == '_' || c == '-')
    check (env.tenantExists name)
    sqlStatement env.tenant
  | .auth _ => pure ()
  | .transaction ops => do
    putBatch env ops
    withLock .store (pure ())
  | .sql _ _ => do
    withLock .sqlDeadline (pure ())
    sqlStatement env.sql

/-! ## The order of the locks -/

/-- Locks are nested in the order of their ranks. -/
def Lock.rank : Lock → ℕ
  | .store => 0
  | .ndarrayIdx => 0
  | .embedderInit => 0
  | .embedder => 1
  | .sqlConn => 1
  | .sqlDeadline => 2
  | .embedCache => 2
  | .statsCache => 2
  | .queryCache => 0
  | .dbSeen => 0

/-- `a` may be held when `b` is acquired. -/
def Before (a b : Lock) : Prop := a.rank < b.rank

instance : DecidableRel Before := fun a b => inferInstanceAs (Decidable (a.rank < b.rank))

/-- No chain of locks, each taken inside the one before, goes on without end. -/
theorem before_wellFounded : WellFounded (Function.swap Before) := by
  refine Subrelation.wf (r := InvImage (· < ·) fun l : Lock => 2 - l.rank) ?_
    (InvImage.wf _ wellFounded_lt)
  intro a b h
  have hab : b.rank < a.rank := h
  have ha : a.rank ≤ 2 := by cases a <;> decide
  change 2 - a.rank < 2 - b.rank
  omega

namespace Locking

variable {α β : Type} {held : List Lock}

/-- A run keeps to the order when `held` is held already. -/
def Orderly (held : List Lock) (x : Locking α) : Prop := x.locks.Respects Before held

/-- A program that is orderly step by step is orderly. -/
theorem Orderly.bind {x : Locking α} {f : α → Locking β} (hx : x.Orderly held)
    (hf : ∀ a, x.value = some a → (f a).Orderly held) : (x >>= f).Orderly held := by
  change (Locking.bind x f).Orderly held
  rw [Locking.bind]
  cases hv : x.value with
  | none => exact hx
  | some a => exact respects_append.mpr ⟨hx, hf a hv⟩

theorem Orderly.seq {x : Locking Unit} {y : Locking β} (hx : x.Orderly held)
    (hy : y.Orderly held) : (x >>= fun _ => y).Orderly held :=
  hx.bind fun _ _ => hy

@[simp] theorem orderly_pure (a : α) : (pure a : Locking α).Orderly held := respects_done

@[simp] theorem orderly_check (ok : Bool) : (check ok).Orderly held := respects_done

@[simp] theorem orderly_withLock {l : Lock} {body : Locking α} :
    (withLock l body).Orderly held ↔ (∀ h ∈ held, Before h l) ∧ body.Orderly (l :: held) :=
  respects_locked

@[simp] theorem orderly_withRead {l : Lock} {body : Locking α} :
    (withRead l body).Orderly held ↔ (∀ h ∈ held, Before h l) ∧ body.Orderly (l :: held) :=
  respects_reading

@[simp] theorem orderly_attempt {x : Locking α} : (attempt x).Orderly held ↔ x.Orderly held :=
  Iff.rfl

@[simp] theorem orderly_forEach {γ : Type} {xs : List γ} {body : γ → Locking Unit} :
    (forEach xs body).Orderly held ↔ ∀ x ∈ xs, (body x).Orderly held := by
  rw [Orderly, forEach, respects_concat]
  simp [Orderly]

/-- A part that may be left out. -/
theorem orderly_when {c : Bool} {x : Locking Unit} (hx : x.Orderly held) :
    (when_ c x).Orderly held := by
  cases c with
  | false => exact orderly_pure ()
  | true => exact hx

/-- Both branches are orderly. -/
theorem orderly_ite {c : Prop} [Decidable c] {x y : Locking α} (hx : x.Orderly held)
    (hy : y.Orderly held) : (if c then x else y).Orderly held := by
  split
  · exact hx
  · exact hy

end Locking

/-- Starting the embedder takes its lock alone. -/
theorem orderly_ensureEmbedder (e : Ensured) : (ensureEmbedder e).Orderly [] := by
  refine .seq (by simp) ?_
  cases e with
  | ready => simp
  | readyAfterWait => simp [Before, Lock.rank]
  | loaded =>
    refine orderly_withLock.mpr ⟨by simp, .seq ?_ ?_⟩
    · simp [Before, Lock.rank]
    · simp [Before, Lock.rank]
  | initFailed =>
    refine orderly_withLock.mpr ⟨by simp, .seq ?_ ?_⟩
    · simp [Before, Lock.rank]
    · simp

/-- A statement on `sql_conn` may run under the store. -/
theorem orderly_sqlStatement {held : List Lock} (run : SqlRun)
    (h : ∀ l ∈ held, l.rank = 0) : (sqlStatement run).Orderly held := by
  have hbefore : ∀ l ∈ held, ∀ b : Lock, 0 < b.rank → Before l b := by
    intro l hl b hb
    rw [Before, h l hl]
    exact hb
  have hdeadline : ∀ l ∈ Lock.sqlConn :: held, Before l .sqlDeadline := by
    intro l hl
    rcases List.mem_cons.mp hl with rfl | hl
    · decide
    · exact hbefore l hl _ (by decide)
  refine orderly_withLock.mpr ⟨fun l hl => hbefore l hl _ (by decide), .seq ?_ (by simp)⟩
  simp only [orderly_forEach, orderly_withLock, orderly_pure, and_true]
  exact fun _ _ => hdeadline

theorem orderly_embedOne (env : Env) : (embedOne env).Orderly [] :=
  .seq (orderly_ensureEmbedder env.ensured) (by simp)

/-- A put takes one lock after the other. -/
theorem orderly_putOne (env : Env) (p : PutReq) : (putOne env p).Orderly [] := by
  refine .seq (by simp) (.bind ?_ fun hasEmbedding _ => ?_)
  · exact orderly_ite (by simp) (orderly_ite (.seq (orderly_embedOne env) (by simp)) (by simp))
  · refine .seq (by simp) (.seq (by simp [adjustStatsCache]) (.seq (orderly_when ?_) ?_))
    · simp [updateLiftedNdarray]
    · simp [clearQueryCache]

theorem orderly_putBatch (env : Env) (batch : List PutReq) : (putBatch env batch).Orderly [] := by
  refine .seq (by simp) (.seq (orderly_when (orderly_embedOne env)) (.seq (by simp) ?_))
  refine .seq (by simp [adjustStatsCache]) (.seq ?_ (by simp [clearQueryCache]))
  simp [updateLiftedNdarray]

/-- The lexical search takes no lock inside another one. -/
theorem orderly_fastLex (lex : FastLex) : (fastLexFromState lex).Orderly [] := by
  cases lex with
  | noQuery => simp [fastLexFromState]
  | noConn => exact .seq (by simp) (by simp)
  | ran run isEmpty => exact .seq (orderly_sqlStatement run (by simp)) (by simp)

/-- Neither does the search by vectors. -/
theorem orderly_fastVec (vec : FastVec) : (fastVecFromState vec).Orderly [] := by
  cases vec with
  | cold => exact .seq (by simp) (by simp)
  | noPairs => exact .seq (by simp) (by simp)
  | hydrated run isEmpty =>
    exact .seq (by simp) (.seq (orderly_sqlStatement run (by simp)) (by simp))

/-- The fast search is orderly in every mode. -/
theorem orderly_fastSearch (env : SearchEnv) (mode : SearchMode) (hasEmb : Bool) :
    (fastSearchFromState env mode hasEmb).Orderly [] := by
  refine orderly_ite (by simp) ?_
  cases mode with
  | lex => exact .bind (orderly_fastLex _) fun _ _ => by simp
  | vec => exact orderly_ite (.bind (orderly_fastVec _) fun _ _ => by simp) (by simp)
  | hybrid =>
    refine orderly_ite ?_ (by simp)
    exact .bind (orderly_fastLex _) fun _ _ => .bind (orderly_fastVec _) fun _ _ => by simp

theorem orderly_queryEmbedding (env : SearchEnv) : (queryEmbedding env).Orderly [] := by
  refine .bind (.seq (by simp) (by simp)) fun cached _ => orderly_ite (by simp) ?_
  refine .seq (orderly_ensureEmbedder _) (orderly_withLock.mpr ⟨by simp, .seq (by simp) ?_⟩)
  simp [putCachedEmbedding, Before, Lock.rank]

/-- A search is orderly, whatever is in its caches. -/
theorem orderly_search (env : SearchEnv) (mode : SearchMode) (embedQuery : Bool) :
    (search env mode embedQuery).Orderly [] := by
  refine .bind (.seq (by simp) (.seq (by simp) (by simp))) fun hit _ => orderly_ite (by simp) ?_
  refine .seq (orderly_when (orderly_queryEmbedding env)) ?_
  refine .bind (orderly_fastSearch env mode embedQuery) fun found _ => ?_
  exact orderly_ite (.seq (by simp) (by simp [putCachedHits]))
    (.seq (by simp) (by simp [putCachedHits]))

/-- A search in a scope is orderly, too. -/
theorem orderly_searchScoped (env : Env) (mode : SearchMode) (embedQuery : Bool) (key : String) :
    (searchScoped env mode embedQuery key).Orderly [] := by
  refine .seq (by simp) (.seq (orderly_sqlStatement _ (by simp)) (orderly_when ?_))
  exact .seq (orderly_search _ _ _) (orderly_when (orderly_sqlStatement _ (by simp)))

/-! ## The two arms that block themselves -/

/-- A `Merge` or a `Delete` whose store call succeeds. -/
def SelfBlocks (env : Env) : Request → Prop
  | .merge _ _ => env.storeOk = true
  | .delete _ => env.storeOk = true
  | _ => False

/-- **One request**: outside the two arms every nesting is in order. -/
theorem orderly_dispatch {env : Env} {req : Request} (h : ¬ SelfBlocks env req) :
    (dispatch env req).Orderly [] := by
  cases req with
  | ping => simp [dispatch]
  | put p => exact .seq (orderly_putOne env p) (by simp [audit])
  | putBatch batch => exact .seq (orderly_putBatch env batch) (by simp)
  | search mode q limit embedQuery => exact orderly_search _ _ _
  | searchScoped mode q limit embedQuery key value limit' => exact orderly_searchScoped _ _ _ _
  | stats =>
    refine .seq (by simp) (orderly_ite (by simp) (orderly_withLock.mpr ⟨by simp, ?_⟩))
    refine .seq (by simp) (.bind ?_ fun _ _ => by simp [Before, Lock.rank])
    exact orderly_sqlStatement _ (by simp [Lock.rank])
  | snap out level => exact .seq (by simp) (by simp)
  | shutdown => exact orderly_ite (by simp) (by simp)
  | merge id state =>
    have hfail : env.storeOk = false := by simpa [SelfBlocks] using h
    simp only [dispatch, hfail]
    exact orderly_withLock.mpr ⟨by simp, respects_done⟩
  | delete id =>
    have hfail : env.storeOk = false := by simpa [SelfBlocks] using h
    simp only [dispatch, hfail]
    exact orderly_withLock.mpr ⟨by simp, respects_done⟩
  | timeline limit offset => simp [dispatch]
  | verify id vk => exact .seq (by simp) (.seq (by simp) (by simp))
  | embed text dim => exact orderly_embedOne env
  | searchVec embedding limit =>
    refine .seq (by simp) (orderly_ite (by simp) (orderly_ite (by simp) ?_))
    exact orderly_sqlStatement _ (by simp)
  | rerank query candidates topK => simp [dispatch]
  | snapMerge snapshotPath outPath level =>
    exact .seq (by simp) (.seq (by simp) (.seq (by simp) (by simp [audit])))
  | batchSearch queries =>
    refine orderly_forEach.mpr fun item _ => .bind ?_ fun _ _ => by simp
    exact orderly_search _ _ _
  | sql query params => exact .seq (by simp) (orderly_sqlStatement _ (by simp))
  | transaction ops => exact .seq (orderly_putBatch env ops) (by simp)
  | auth token => simp [dispatch]
  | useTenant name => exact .seq (by simp) (.seq (by simp) (orderly_sqlStatement _ (by simp)))

/-- In the two arms `audit` asks for the store under the store. -/
theorem dispatch_reacquires {env : Env} {req : Request} (h : SelfBlocks env req) :
    (Lock.store, Lock.store) ∈ (dispatch env req).locks.nests [] := by
  cases req with
  | merge id state =>
    have hok : env.storeOk = true := h
    simp only [dispatch, hok]
    decide
  | delete id =>
    have hok : env.storeOk = true := h
    simp only [dispatch, hok]
    decide
  | _ => exact absurd h id

/-! ## The daemon as a system of tasks -/

/-- What a task of the daemon does next: serve a request, publish the warmed index, warm the
embedder, or flush the sidecar on a signal. -/
inductive Activity where
  | request (env : Env) (req : Request)
  | turboWarm
  | warmEmbedder (e : Ensured)
  | signal (annUsearch : Bool)

namespace Activity

/-- The locks of an activity. -/
def locks : Activity → Scoped Lock
  | request env req => (dispatch env req).locks
  | turboWarm => locked .ndarrayIdx done
  | warmEmbedder e => (ensureEmbedder e).locks
  | signal annUsearch => if annUsearch then locked .store done else done

/-- The activity is one of the two arms. -/
def SelfBlocks : Activity → Prop
  | request env req => Daemon.SelfBlocks env req
  | _ => False

/-- An activity that does not block itself takes its locks in order. -/
theorem locks_respects {a : Activity} (h : ¬ a.SelfBlocks) : a.locks.Respects Before [] := by
  cases a with
  | request env req => exact orderly_dispatch h
  | turboWarm => simp [locks]
  | warmEmbedder e => exact orderly_ensureEmbedder e
  | signal annUsearch =>
    rw [locks]
    split
    · simp
    · simp

/-- One that does takes the lock of the store inside itself. -/
theorem locks_reacquires {a : Activity} (h : a.SelfBlocks) :
    (Lock.store, Lock.store) ∈ a.locks.nests [] := by
  cases a with
  | request env req => exact dispatch_reacquires h
  | _ => exact absurd h id

end Activity

section System

variable {ι : Type} (tasks : ι → List Activity)

/-- The lock actions of each task: a connection serves one request after the other. -/
def programs : ι → List (Action Lock) := fun i => (tasks i).flatMap fun a => a.locks.actions

/-- Some task acquires `b` while it holds `a`. -/
def Nested (a b : Lock) : Prop := ∃ i, ∃ act ∈ tasks i, (a, b) ∈ act.locks.nests []

variable {tasks}

/-- What is ahead of a thread: the nested locks of its activities. -/
theorem ahead_programs (i : ι) :
    ahead [] (programs tasks i) = (tasks i).flatMap fun a => a.locks.nests [] := by
  rw [programs]
  induction tasks i with
  | nil => rfl
  | cons a rest ih => rw [List.flatMap_cons, ahead_actions, ih, List.flatMap_cons]

/-- If no activity blocks itself, every nested lock comes later in the order. -/
theorem nested_before (h : ∀ i, ∀ a ∈ tasks i, ¬ a.SelfBlocks) {a b : Lock}
    (hab : Nested tasks a b) : Before a b := by
  obtain ⟨i, act, hact, hmem⟩ := hab
  exact Activity.locks_respects (h i act hact) _ hmem

/-- The same along a chain of nested locks. -/
theorem transGen_before (h : ∀ i, ∀ a ∈ tasks i, ¬ a.SelfBlocks) {a b : Lock}
    (hab : Relation.TransGen (Nested tasks) a b) : Before a b := by
  induction hab with
  | single hab => exact nested_before h hab
  | tail _ hbc ih => exact lt_trans ih (nested_before h hbc)

end System

/-- **Lock discipline**: a request takes no lock twice exactly when it is not a `Merge` or a
`Delete` whose store call succeeds; and tasks take no lock twice, nest their locks without a
cycle and never wait for each other in a circle exactly when none of them serves such a
request. -/
theorem dispatch_locks_iff (env : Env) (req : Request) {ι : Type} [DecidableEq ι]
    (tasks : ι → List Activity) :
    ((∀ l, (l, l) ∉ (dispatch env req).locks.nests []) ↔ ¬ SelfBlocks env req) ∧
    (((∀ i, ∀ a ∈ tasks i, ∀ l, (l, l) ∉ a.locks.nests []) ∧
        (∀ l, ¬ Relation.TransGen (Nested tasks) l l) ∧
        ∀ s, Reachable (programs tasks) s → ¬ Deadlocked s) ↔
      ∀ i, ∀ a ∈ tasks i, ¬ a.SelfBlocks) := by
  refine ⟨⟨fun h hself => h _ (dispatch_reacquires hself), fun h l hl => ?_⟩,
    fun h i a ha hself => ?_, fun h => ⟨fun i a ha l hl => ?_, fun l hl => ?_, fun s hs => ?_⟩⟩
  · exact lt_irrefl _ (orderly_dispatch h _ hl)
  · exact h.1 i a ha _ (Activity.locks_reacquires hself)
  · exact lt_irrefl _ (Activity.locks_respects (h i a ha) _ hl)
  · exact lt_irrefl _ (transGen_before h hl)
  · refine not_deadlocked before_wellFounded (fun i n hn => ?_) hs
    rw [ahead_programs] at hn
    obtain ⟨a, ha, hn⟩ := List.mem_flatMap.mp hn
    exact Activity.locks_respects (h i a ha) n hn

/-- Outcomes of a daemon without embedder, index or cached results, where every call succeeds. -/
def plainSearch : SearchEnv where
  fingerprintChanged := false
  cacheHit := false
  embeddingCached := false
  ensured := .ready
  embedOk := true
  fastDisabled := false
  lex := .noQuery
  vec := .cold
  storeOk := true

/-- The environment around it. -/
def plainEnv : Env where
  boundsOk := fun _ => true
  ensured := .ready
  embedOk := true
  storeOk := true
  search := fun _ => plainSearch
  scopeKeyOk := fun _ => true
  scopedLex := ⟨0, true⟩
  scopedShort := false
  globalEmpty := true
  scopedFilter := ⟨0, true⟩
  statsFresh := false
  maxDocId := ⟨0, true⟩
  snapPathOk := fun _ => true
  snapOk := true
  annUsearch := false
  keyOk := fun _ => true
  indexCold := true
  pairsEmpty := true
  hydrate := ⟨0, true⟩
  tenantExists := fun _ => true
  tenant := ⟨0, true⟩
  sql := ⟨0, true⟩

/-- One client that deletes a document: the store mutex is asked for twice, and the daemon
reaches a state in which the request waits for itself. -/
theorem delete_blocks_itself :
    (Lock.store, Lock.store) ∈ (dispatch plainEnv (.delete 1)).locks.nests [] ∧
      ∃ s, Reachable (programs fun _ : Unit => [.request plainEnv (.delete 1)]) s ∧
        Deadlocked s := by
  have hre : (Lock.store, Lock.store) ∈ (dispatch plainEnv (.delete 1)).locks.nests [] := by
    decide
  have hahead : (Lock.store, Lock.store) ∈
      ahead [] (programs (fun _ : Unit => [.request plainEnv (.delete 1)]) ()) := by
    rw [ahead_programs, List.flatMap_singleton]
    exact hre
  exact ⟨hre, exists_deadlocked_of_reacquire () hahead⟩

end Daemon

end SynapseMemory
