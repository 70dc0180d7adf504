import SynapseMemory.Broadcast
import SynapseMemory.DaemonState
import SynapseMemory.TemporalQuery

/-!
# Live queries

The daemon tells its subscribers what is put into the store. A request is answered after its events
were sent, one for each document. A subscriber has a filter and gets the events that match it from a
broadcast channel, which never waits for the slow ones.

Sending is not part of storing: other connections may send, and store, in between. Still every
document is announced once, in the order of its connection, and a subscriber gets what it asked for
unless it is behind by more than the channel keeps (`live_delivery`).

Requests that fail send nothing and are left out. What other requests and processes write (`write`)
is not announced.
-/

namespace SynapseMemory

namespace LiveQuery

open Broadcast Daemon Temporal

/-! ## Events and filters -/

/-- `LiveEvent` -/
structure LiveEvent where
  op : Text
  id : ℕ
  title : Option Text
  uri : Option Text
  ts : ℤ
  deriving DecidableEq

/-- `SubscribeFilter` -/
structure SubscribeFilter where
  contains : Option Text
  uriPrefix : Option Text
  deriving DecidableEq

/-- `matches_filter` -/
def matchesFilter [Lowercase] (ev : LiveEvent) (f : SubscribeFilter) : Bool :=
  (f.contains.all fun c =>
    ev.title.any fun t => Text.containsStr (toLowercase t) (toLowercase c)) &&
  f.uriPrefix.all fun p => ev.uri.any fun u => p.isPrefixOf u

/-! ## Who may subscribe -/

/-- What `ws_handler` looks at. -/
structure WsRequest where
  authorization : Option Text
  token : Option Text
  origin : Option Text
  deriving DecidableEq

/-- The token of the header, or of the query. -/
def WsRequest.given (request : WsRequest) : Option Text :=
  (request.authorization.bind ("Bearer ".toList.isPrefixOf? ·)).or request.token

/-- All bytes are compared. -/
def sameToken (given expected : Text) : Bool :=
  let g := Text.asBytes given
  let e := Text.asBytes expected
  g.length == e.length && (g.zip e).foldl (fun a b => a ||| (b.1 ^^^ b.2)) 0 == 0

/-- What is behind the last `://`, up to a colon. -/
def originHost (origin : Text) : Text :=
  let rest := (origin.tails.filterMap ("://".toList.isPrefixOf? ·)).getLast?.getD origin
  rest.takeWhile (· ≠ ':')

/-- `is_loopback` -/
def isLoopback (host : Text) : Bool :=
  ["localhost", "127.0.0.1", "::1", "[::1]"].any fun h => h.toList == host

/-- `ws_handler` -/
def accepts (token : Option Text) (request : WsRequest) : Bool :=
  (token.all fun expected => request.given.any (sameToken · expected)) &&
  request.origin.all fun origin => isLoopback (originHost origin)

theorem foldl_xor_eq_zero (l : List (UInt8 × UInt8)) (a : UInt8) :
    l.foldl (fun a b => a ||| (b.1 ^^^ b.2)) a = 0 ↔ a = 0 ∧ ∀ b ∈ l, b.1 = b.2 := by
  induction l generalizing a with
  | nil => simp
  | cons b l ih => simp [ih, and_assoc]

theorem sameToken_iff {given expected : Text} :
    sameToken given expected ↔ Text.asBytes given = Text.asBytes expected := by
  rw [sameToken, Bool.and_eq_true, beq_iff_eq, beq_iff_eq, foldl_xor_eq_zero,
    ← List.forall₂_eq_eq_eq,
    List.forall₂_iff_zip]
  simp

/-- No host has a colon, so two of the names are never found. -/
theorem isLoopback_originHost {origin : Text} :
    isLoopback (originHost origin) ↔
      originHost origin = "localhost".toList ∨ originHost origin = "127.0.0.1".toList := by
  have hcolon : ':' ∉ originHost origin := fun h => by
    simpa using List.mem_takeWhile_imp h
  constructor
  · intro h
    simp only [isLoopback, List.any_cons, List.any_nil, Bool.or_false, Bool.or_eq_true,
      beq_iff_eq] at h
    rcases h with h | h | h | h
    · exact .inl h.symm
    · exact .inr h.symm
    · exact absurd (h ▸ hcolon) (by decide)
    · exact absurd (h ▸ hcolon) (by decide)
  · rintro (h | h) <;> rw [h] <;> decide

/-- **Who may subscribe**: a client that has the token, and that is no page from elsewhere. -/
theorem accepts_iff {token : Option Text} {request : WsRequest} :
    accepts token request ↔
      (∀ expected ∈ token, ∃ given ∈ request.given, Text.asBytes given = Text.asBytes expected) ∧
      ∀ origin ∈ request.origin,
        originHost origin = "localhost".toList ∨ originHost origin = "127.0.0.1".toList := by
  simp only [accepts, Bool.and_eq_true, Option.all_eq_true, Option.any_eq_true, sameToken_iff,
    isLoopback_originHost, Option.mem_def]

/-! ## The system -/

section System

variable {H E : Type} [DecidableEq H]

/-- A document to put. -/
structure PutReq (H E : Type) where
  item : Item H E
  title : Option Text
  uri : Option Text

/-- A websocket, what its receiver has, and what its client got. -/
structure Subscriber where
  request : WsRequest
  filter : SubscribeFilter
  rx : Receiver (ℕ × LiveEvent)
  /-- What the client got. -/
  sent : List LiveEvent
  attached : Bool

/-- An event of the channel goes with its connection. The ids that the store gave to a connection
are for the statements. -/
structure State (H E : Type) where
  tables : Tables H E
  pending : ℕ → List LiveEvent
  ids : ℕ → List ℕ
  log : List (ℕ × LiveEvent)
  subs : ℕ → Option Subscriber

/-- The store is empty, and nobody listens. -/
def State.init : State H E := ⟨.empty, fun _ => [], fun _ => [], [], fun _ => none⟩

/-- What happens next. -/
inductive Action (H E : Type) where
  | put (p : ℕ) (req : PutReq H E) (now : ℤ)
  | putBatch (p : ℕ) (batch : List (PutReq H E)) (now : ℤ)
  | write (tables : Tables H E)
  | emit (p : ℕ)
  | attach (i : ℕ) (request : WsRequest) (filter : SubscribeFilter)
  /-- The subscriber's loop gets what is next. The client may be gone when it is sent. -/
  | recv (i : ℕ) (delivered : Bool)
  | leave (i : ℕ)

/-- The event of a row. -/
def event (op : String) (now : ℤ) (row : Row E) (req : PutReq H E) : LiveEvent :=
  ⟨op.toList, row.id, req.title, req.uri, now⟩

omit [DecidableEq H] in
/-- The events of a batch have the ids of its rows. -/
theorem map_id_event {rows : List (Row E)} {batch : List (PutReq H E)} (op : String) (now : ℤ)
    (h : rows.length = batch.length) :
    (List.zipWith (event op now) rows batch).map LiveEvent.id = rows.map Row.id := by
  rw [List.map_zipWith]
  induction rows generalizing batch with
  | nil => rfl
  | cons row rows ih =>
    cases batch with
    | nil => cases h
    | cons req batch =>
      rw [List.zipWith_cons_cons, ih (Nat.succ.inj h)]
      rfl

theorem length_putBatch (t : Tables H E) (items : List (Item H E)) :
    (t.putBatch items).2.length = items.length := by
  induction items generalizing t with
  | nil => rfl
  | cons item rest ih => exact congrArg Nat.succ (ih (t.put item).1)

/-- A request was stored. Its connection handles no other one before its events are sent. -/
def State.announce (s : State H E) (p : ℕ) (tables : Tables H E) (rows : List (Row E))
    (events : List LiveEvent) : Option (State H E) :=
  if s.pending p = [] then
    some { s with
      tables
      pending := Function.update s.pending p events
      ids := Function.update s.ids p (s.ids p ++ rows.map Row.id) }
  else none

/-- `handle_socket`: what the loop does with what it gets. -/
def Subscriber.handle [Lowercase] (sub : Subscriber) (delivered : Bool) :
    Recv (ℕ × LiveEvent) × Receiver (ℕ × LiveEvent) → Option Subscriber
  | (.ok e, rx) =>
    if matchesFilter e.2 sub.filter then
      if delivered then some { sub with rx, sent := sub.sent ++ [e.2] }
      else some { sub with attached := false }
    else some { sub with rx }
  | (.lagged _, rx) => some { sub with rx }
  | (.wait, _) => none

variable [Lowercase] {capacity : ℕ} (w : Window capacity) (token : Option Text)

/-- One step. It is `none` for what cannot happen next. -/
def step (s : State H E) : Action H E → Option (State H E)
  | .put p req now =>
    let (tables, row) := s.tables.put req.item
    s.announce p tables [row] [event "Put" now row req]
  | .putBatch p batch now =>
    let (tables, rows) := s.tables.putBatch (batch.map PutReq.item)
    s.announce p tables rows (List.zipWith (event "PutBatch" now) rows batch)
  | .write tables => some { s with tables }
  | .emit p =>
    match s.pending p with
    | [] => none
    | e :: rest =>
      some { s with log := s.log ++ [(p, e)], pending := Function.update s.pending p rest }
  | .attach i request filter =>
    if (s.subs i).isNone && accepts token request then
      some { s with
        subs := Function.update s.subs i (some ⟨request, filter, .new s.log, [], true⟩) }
    else none
  | .recv i delivered => do
    let sub ← s.subs i
    if sub.attached then
      let sub ← sub.handle delivered (sub.rx.recv w s.log)
      some { s with subs := Function.update s.subs i (some sub) }
    else none
  | .leave i => do
    let sub ← s.subs i
    some { s with subs := Function.update s.subs i (some { sub with attached := false }) }

/-! ## What a step preserves -/

/-- What a connection has sent. -/
def sentBy (p : ℕ) (log : List (ℕ × LiveEvent)) : List LiveEvent :=
  (log.filter (·.1 = p)).map Prod.snd

/-- The client got what matches of what the loop got. -/
structure Subscriber.Sound (log : List (ℕ × LiveEvent)) (sub : Subscriber) : Prop where
  accepted : accepts token sub.request
  faithful : sub.rx.Faithful log
  sent : sub.sent = (sub.rx.taken.filter fun e => matchesFilter e.2 sub.filter).map Prod.snd

/-- What holds in every state of a run: each event has been announced once, in the order of
writing. -/
structure State.Sound (s : State H E) : Prop where
  announced : ∀ p, (sentBy p s.log ++ s.pending p).map LiveEvent.id = s.ids p
  subs : ∀ i, ∀ sub ∈ s.subs i, sub.Sound token s.log

variable {w token} {s s' : State H E}

/-- An event that is sent leaves a subscriber sound. -/
theorem Subscriber.Sound.send {log : List (ℕ × LiveEvent)} {sub : Subscriber}
    (h : sub.Sound token log) (e : ℕ × LiveEvent) : sub.Sound token (log ++ [e]) :=
  ⟨h.accepted, h.faithful.send e, h.sent⟩

/-- So does one that is handled. -/
theorem Subscriber.Sound.handle {log : List (ℕ × LiveEvent)} {sub sub' : Subscriber}
    (h : sub.Sound token log) {delivered : Bool}
    (hsub : sub.handle delivered (sub.rx.recv w log) = some sub') : sub'.Sound token log := by
  have hrecv := h.faithful.recv (w := w)
  rcases hget : sub.rx.recv w log with ⟨e | n | _, rx⟩
  case ok =>
    have htaken := Receiver.recv_ok hget
    rw [hget] at hsub hrecv
    rw [Subscriber.handle] at hsub
    split at hsub
    next hmatch =>
      split at hsub
      next =>
        obtain rfl := Option.some_inj.mp hsub
        refine ⟨h.accepted, hrecv, ?_⟩
        simp [htaken, List.filter_append, hmatch, h.sent]
      next =>
        obtain rfl := Option.some_inj.mp hsub
        exact ⟨h.accepted, h.faithful, h.sent⟩
    next hmatch =>
      obtain rfl := Option.some_inj.mp hsub
      refine ⟨h.accepted, hrecv, ?_⟩
      simp [htaken, List.filter_append, hmatch, h.sent]
  case lagged =>
    have htaken := Receiver.recv_lagged hget
    rw [hget] at hsub hrecv
    obtain rfl := Option.some_inj.mp hsub
    refine ⟨h.accepted, hrecv, ?_⟩
    rw [htaken, h.sent]
  case wait =>
    rw [hget] at hsub
    cases hsub

omit [DecidableEq H] in
/-- An announcement leaves the state sound. -/
theorem State.Sound.announce {p : ℕ} {tables : Tables H E} {rows : List (Row E)}
    {events : List LiveEvent} (h : s.Sound token) (hids : events.map LiveEvent.id = rows.map Row.id)
    (hs : s.announce p tables rows events = some s') : s'.Sound token := by
  rw [State.announce] at hs
  split at hs
  next hidle =>
    obtain rfl := Option.some_inj.mp hs
    refine ⟨fun q => ?_, h.subs⟩
    rcases eq_or_ne q p with rfl | hq
    · simp only [Function.update_self]
      rw [List.map_append, hids, ← h.announced q, hidle, List.append_nil]
    · simp only [Function.update_of_ne hq]
      exact h.announced q
  next => cases hs

omit [DecidableEq H] in
/-- A sound subscriber may take another one's place. -/
theorem State.Sound.update {i : ℕ} {sub : Subscriber} (h : s.Sound token)
    (hsub : sub.Sound token s.log) :
    State.Sound token { s with subs := Function.update s.subs i (some sub) } := by
  refine ⟨h.announced, fun j t ht => ?_⟩
  rcases eq_or_ne j i with rfl | hj
  · obtain rfl := Option.some_inj.mp ((Function.update_self j _ _).symm.trans ht)
    exact hsub
  · exact h.subs j t ((Function.update_of_ne hj _ _).symm.trans ht)

/-- What one step preserves. -/
theorem State.Sound.step {a : Action H E} (h : s.Sound token)
    (hs : step w token s a = some s') : s'.Sound token := by
  cases a with
  | put p req now => exact h.announce rfl hs
  | putBatch p batch now =>
    exact h.announce (map_id_event "PutBatch" now (by rw [length_putBatch, List.length_map])) hs
  | write tables =>
    obtain rfl := Option.some_inj.mp hs
    exact ⟨h.announced, h.subs⟩
  | emit p =>
    rw [LiveQuery.step] at hs
    split at hs
    next => cases hs
    next e rest hpending =>
      obtain rfl := Option.some_inj.mp hs
      refine ⟨fun q => ?_, fun i sub hsub => (h.subs i sub hsub).send (p, e)⟩
      have hq := h.announced q
      rcases eq_or_ne q p with rfl | hne
      · rw [hpending] at hq
        simp only [Function.update_self, ← hq]
        simp [sentBy, List.filter_append]
      · simp only [Function.update_of_ne hne, ← hq]
        simp [sentBy, List.filter_append, hne.symm]
  | attach i request filter =>
    rw [LiveQuery.step] at hs
    split at hs
    next haccept =>
      obtain rfl := Option.some_inj.mp hs
      rw [Bool.and_eq_true] at haccept
      exact h.update ⟨haccept.2, Receiver.faithful_new s.log, rfl⟩
    next => cases hs
  | recv i delivered =>
    obtain ⟨sub, hsub, hs⟩ := Option.bind_eq_some_iff.mp hs
    split at hs
    next =>
      obtain ⟨sub', hsub', hs⟩ := Option.bind_eq_some_iff.mp hs
      obtain rfl := Option.some_inj.mp hs
      exact h.update ((h.subs i sub hsub).handle hsub')
    next => cases hs
  | leave i =>
    obtain ⟨sub, hsub, hs⟩ := Option.bind_eq_some_iff.mp hs
    obtain rfl := Option.some_inj.mp hs
    obtain ⟨haccept, hfaithful, hsent⟩ := h.subs i sub hsub
    exact h.update ⟨haccept, hfaithful, hsent⟩

omit [DecidableEq H] in
theorem sound_init : (State.init : State H E).Sound token := ⟨fun _ => rfl, fun _ _ h => by cases h⟩

/-! ## Loss -/

/-- The loop of this subscriber is not behind by more than the capacity. -/
def InTime (capacity i : ℕ) (s : State H E) : Action H E → Prop
  | .recv j _ => j = i → ∀ sub ∈ s.subs i, s.log.length ≤ sub.rx.pos + capacity
  | _ => True

instance (capacity i : ℕ) (s : State H E) : (a : Action H E) → Decidable (InTime capacity i s a)
  | .recv j _ =>
    inferInstanceAs (Decidable (j = i → ∀ sub ∈ s.subs i, s.log.length ≤ sub.rx.pos + capacity))
  | .put .. | .putBatch .. | .write _ | .emit _ | .attach .. | .leave _ => .isTrue trivial

/-- Handling an event loses nothing as long as the channel does not overflow. -/
theorem Subscriber.handle_lost {sub sub' : Subscriber} {delivered : Bool}
    {log : List (ℕ × LiveEvent)} (hlog : log.length ≤ sub.rx.pos + capacity)
    (hsub : sub.handle delivered (sub.rx.recv w log) = some sub') :
    sub'.rx.lost = sub.rx.lost := by
  have hlost := Receiver.recv_lost (w := w) hlog
  rcases hget : sub.rx.recv w log with ⟨e | n | _, rx⟩ <;>
    rw [hget] at hlost hsub <;> rw [Subscriber.handle] at hsub
  case ok =>
    split at hsub
    · split at hsub <;> obtain rfl := Option.some_inj.mp hsub
      · exact hlost
      · rfl
    · obtain rfl := Option.some_inj.mp hsub
      exact hlost
  case lagged =>
    obtain rfl := Option.some_inj.mp hsub
    exact hlost
  case wait => cases hsub

omit [DecidableEq H] [Lowercase] in
theorem forall_mem_update {i j : ℕ} {sub : Subscriber} (h : ∀ t ∈ s.subs i, t.rx.lost = 0)
    (hsub : j = i → sub.rx.lost = 0) :
    ∀ t ∈ Function.update s.subs j (some sub) i, t.rx.lost = 0 := by
  intro t ht
  rcases eq_or_ne i j with rfl | hne
  · obtain rfl := Option.some_inj.mp ((Function.update_self i _ _).symm.trans ht)
    exact hsub rfl
  · exact h t ((Function.update_of_ne hne _ _).symm.trans ht)

omit [DecidableEq H] [Lowercase] in
theorem State.announce_subs {p : ℕ} {tables : Tables H E} {rows : List (Row E)}
    {events : List LiveEvent} (hs : s.announce p tables rows events = some s') :
    s'.subs = s.subs := by
  rw [State.announce] at hs
  split at hs
  · obtain rfl := Option.some_inj.mp hs
    rfl
  · cases hs

/-- What a subscriber has lost after a step. -/
theorem step_lost {a : Action H E} {i : ℕ} (htime : InTime capacity i s a)
    (hs : step w token s a = some s') (h : ∀ sub ∈ s.subs i, sub.rx.lost = 0) :
    ∀ sub ∈ s'.subs i, sub.rx.lost = 0 := by
  cases a with
  | put p req now => rwa [State.announce_subs hs]
  | putBatch p batch now => rwa [State.announce_subs hs]
  | write tables =>
    obtain rfl := Option.some_inj.mp hs
    exact h
  | emit p =>
    rw [step] at hs
    split at hs
    · cases hs
    · obtain rfl := Option.some_inj.mp hs
      exact h
  | attach j request filter =>
    rw [step] at hs
    split at hs
    · obtain rfl := Option.some_inj.mp hs
      exact forall_mem_update h fun _ => rfl
    · cases hs
  | recv j delivered =>
    obtain ⟨sub, hsub, hs⟩ := Option.bind_eq_some_iff.mp hs
    split at hs
    · obtain ⟨sub', hsub', hs⟩ := Option.bind_eq_some_iff.mp hs
      obtain rfl := Option.some_inj.mp hs
      refine forall_mem_update h ?_
      rintro rfl
      rw [Subscriber.handle_lost (htime rfl sub hsub) hsub']
      exact h sub hsub
    · cases hs
  | leave j =>
    obtain ⟨sub, hsub, hs⟩ := Option.bind_eq_some_iff.mp hs
    obtain rfl := Option.some_inj.mp hs
    refine forall_mem_update h ?_
    rintro rfl
    exact h sub hsub

/-! ## Delivery -/

/-- **Every document is announced once, and every subscriber gets what it asked for.** -/
theorem live_delivery {as : List (Action H E)}
    (hrun : Transition.run (step w token) State.init as = some s) :
    (∀ p, (sentBy p s.log ++ s.pending p).map LiveEvent.id = s.ids p) ∧
    ∀ i, ∀ sub ∈ s.subs i,
      let passed :=
        ((sub.rx.passed s.log).filter fun e => matchesFilter e.2 sub.filter).map Prod.snd
      accepts token sub.request ∧ sub.sent.Sublist passed ∧
      passed.length ≤ sub.sent.length + sub.rx.lost ∧
      (Transition.Meets (step w token) (InTime capacity i) State.init as → sub.sent = passed) := by
  have hsound : s.Sound token :=
    Transition.run_preserves (State.Sound token) (fun _ _ _ h hs => h.step hs) hrun sound_init
  refine ⟨hsound.announced, fun i sub hsub => ?_⟩
  obtain ⟨haccept, hfaithful, hsent⟩ := hsound.subs i sub hsub
  refine ⟨haccept, ?_, ?_, fun hmeets => ?_⟩
  · rw [hsent]
    exact (hfaithful.sub.filter _).map Prod.snd
  · rw [hsent, List.length_map, List.length_map]
    exact hfaithful.length_filter_le _
  · have hlost := Transition.run_invariant (fun s => ∀ sub ∈ s.subs i, sub.rx.lost = 0)
      (fun _ _ _ h htime hs => step_lost htime hs h) hrun hmeets (fun _ h => by cases h)
    rw [hsent, hfaithful.taken_eq (hlost sub hsub)]

end System

/-! ## Two connections and a subscriber -/

/-- A page without a vector. -/
def page (hash : ℕ) (title : String) : PutReq ℕ Unit := ⟨⟨hash, none⟩, some title.toList, none⟩

/-- The events of two connections are sent in turns. The channel keeps two of them, and the
subscriber looks for `b`. -/
def twoConnections : List (Action ℕ Unit) :=
  [.attach 0 ⟨some "Bearer t".toList, none, some "http://localhost:3000".toList⟩
      ⟨some "B".toList, none⟩,
    .putBatch 1 [page 10 "Ab", page 11 "Cd"] 0, .put 2 (page 12 "Bc") 0,
    .emit 2, .emit 1, .recv 0 true, .emit 1, .recv 0 true, .recv 0 true]

/-- Two connections and one subscriber. Nothing is lost. -/
theorem live_delivery_twoConnections : ∃ s sub,
    Transition.run (@step ℕ Unit _ .asciiOnly 2 (.last 2) (some "t".toList)) State.init
      twoConnections = some s ∧ s.subs 0 = some sub ∧
    (sentBy 1 s.log ++ s.pending 1).map LiveEvent.id = [1, 2] ∧
    sub.sent.map LiveEvent.id = [3, 1] ∧
    sub.sent = ((sub.rx.passed s.log).filter fun e =>
      @matchesFilter .asciiOnly e.2 sub.filter).map Prod.snd := by
  have hintime : Transition.Meets (@step ℕ Unit _ .asciiOnly 2 (.last 2) (some "t".toList))
      (InTime 2 0) State.init twoConnections := by decide +kernel
  refine ⟨_, _, rfl, rfl, ?_, rfl, ?_⟩
  · exact (@live_delivery ℕ Unit _ .asciiOnly 2 (.last 2) (some "t".toList) _ twoConnections
      rfl).1 1
  · exact ((@live_delivery ℕ Unit _ .asciiOnly 2 (.last 2) (some "t".toList) _ twoConnections
      rfl).2 0 _ rfl).2.2.2 hintime

end LiveQuery

end SynapseMemory
