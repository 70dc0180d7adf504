import SynapseMemory.Client
import SynapseMemory.Session

/-!
# The client against the daemon's gate

A `call` connects, authenticates with the token it found, and sends its request; `batch` connects
and sends its searches at once. Each request is written and then its response is read, so a
session is a list of exchanges. A request whose length does not fit into its header is not written,
and the session ends before it.

The daemon's side of an exchange is one pass of the loop of `handle_conn`: it closes the
connection on a frame that is too long or does not decode, refuses a gated request on a
connection that has not authenticated, and answers every other. `run_agrees_iff` says which
commands stay within the protocol: `batch` never does when it has a query to send.
-/

namespace SynapseMemory

namespace Client

open Proto

/-! ## The daemon's side -/

/-- A daemon that requires a token: the length of an encoded frame, the conversions to `f32`, the
answers of the arms of `dispatch` that the client uses, and whether its store calls go through. -/
structure Daemon where
  token : String
  frameLen : Payload → ℕ
  f32OfInt : ℤ → F32
  f32OfReal : F64 → F32
  serve : Request → Response
  storeOk : Bool

namespace Daemon

/-- An optional string, as serde reads it. -/
def decodeOptString : Json → Option (Option String)
  | .null => some none
  | .str s => some (some s)
  | _ => none

/-- A field that must be a string. -/
def decodeString : Json → Option String
  | .str s => some s
  | _ => none

/-- A number of an embedding: an integer or a float. -/
def decodeF32 (d : Daemon) : Json → Option F32
  | .int n => some (d.f32OfInt n)
  | .real x => some (d.f32OfReal x)
  | _ => none

/-- An optional embedding. -/
def decodeEmbedding (d : Daemon) : Json → Option (Option (List F32))
  | .null => some none
  | .arr items => (items.mapM d.decodeF32).map some
  | _ => none

/-- An optional JSON value: `null` is none. -/
def decodeMeta : Json → Option Json
  | .null => none
  | v => some v

/-- An item of a batch as the daemon reads it. -/
def decodePutItem (d : Daemon) (item : PutItem) : Option PutReq := do
  let title ← decodeOptString item.title
  let uri ← decodeOptString item.uri
  let text ← decodeString item.text
  let embedding ← d.decodeEmbedding item.embedding
  pure { title, uri, text, meta_ := decodeMeta item.meta_, embed := item.embed, embedding }

/-- `rmp_serde::from_slice`: only the items of `put-batch` can fail to decode. -/
def decode (d : Daemon) : Payload → Option Request
  | .ping => some .ping
  | .stats => some .stats
  | .auth token => some (.auth token)
  | .sql query => some (.sql query [])
  | .search mode q limit embedQuery => some (.search mode q limit embedQuery)
  | .searchScoped mode q limit embedQuery key value candidates =>
    some (.searchScoped mode q limit embedQuery (some key) value candidates)
  | .batchSearch queries => some (.batchSearch queries)
  | .put title uri text meta_ embed =>
    some (.put { title, uri, text, meta_ := decodeMeta meta_, embed, embedding := none })
  | .putBatch items => (items.mapM d.decodePutItem).map .putBatch

/-- The frame is within the limits of the loop and decodes. -/
def Readable (d : Daemon) (p : Payload) : Prop :=
  0 < d.frameLen p ∧ d.frameLen p ≤ 256 * 1024 * 1024 ∧ (d.decode p).isSome

instance (d : Daemon) (p : Payload) : Decidable (d.Readable p) :=
  inferInstanceAs (Decidable (_ ∧ _))

end Daemon

/-- An answer to a frame: whether it was dispatched, and the response. -/
structure Reply where
  dispatched : Bool
  response : Response

/-- One frame at the daemon: the reply and the flag for the next frame, unless the connection is
closed without one. -/
def answer (d : Daemon) (authed : Bool) (p : Payload) : Option (Reply × Bool) :=
  if d.Readable p then
    (d.decode p).bind fun req =>
      match Session.handleFrame (some d.token) authed ⟨req, d.serve req, d.storeOk⟩ with
      | ([.sent resp], some authed) => some (⟨false, resp⟩, authed)
      | ([.dispatched _, .sent resp], some authed) => some (⟨true, resp⟩, authed)
      | _ => none
  else none

/-! ## The client's side -/

/-- A request that was written, and the reply that was read. -/
structure Exchange where
  payload : Payload
  reply : Option Reply

/-- A connection: the daemon's flag for it, and what went over it. -/
structure Link where
  authed : Bool
  log : List Exchange

/-- `connect_daemon` against a daemon that requires a token. -/
def Link.connect : Link := ⟨false, []⟩

/-- `u32::try_from(body.len())`: the length of the frame fits into the header. -/
def Daemon.fits (d : Daemon) (p : Payload) : Bool := d.frameLen p < 2 ^ 32

/-- Write a request, then read one response; reading fails when the connection was closed. -/
def sendOnStream (d : Daemon) (link : Link) (p : Payload) : Link × Option Response :=
  if d.fits p then
    match answer d link.authed p with
    | none => (⟨link.authed, link.log ++ [⟨p, none⟩]⟩, none)
    | some (reply, authed) => (⟨authed, link.log ++ [⟨p, some reply⟩]⟩, some reply.response)
  else (link, none)

/-- `r.get("Err")` -/
def isErr : Response → Bool
  | .err _ => true
  | _ => false

/-- Connect, authenticate when there is a token, and send the request. -/
def call (m : Machine) (d : Daemon) (req : Payload) : Link × Option Response :=
  match m.token with
  | none => sendOnStream d .connect req
  | some token =>
    match sendOnStream d .connect (.auth token) with
    | (link, none) => (link, none)
    | (link, some r) => if isErr r then (link, none) else sendOnStream d link req

/-- Send the requests of a batch on one connection, as long as responses come. -/
def sendAll (d : Daemon) : Link → List Payload → Link
  | link, [] => link
  | link, p :: rest =>
    match sendOnStream d link p with
    | (link, none) => link
    | (link, some _) => sendAll d link rest

/-- The connections that a session opens. -/
def perform (m : Machine) (d : Daemon) : Invocation → List Link
  | .help => []
  | .doctor =>
    match call m d .ping with
    | (link, none) => [link]
    | (link, some _) => [link, (call m d .stats).1]
  | .call req => [(call m d req).1]
  | .batch opts =>
    match batchRequests m opts with
    | [] => []
    | req :: rest => [sendAll d .connect (req :: rest)]

/-- The client; a command line that does not parse opens no connection. -/
def run (m : Machine) (d : Daemon) (args : List String) : List Link :=
  match parse m args with
  | .error _ => []
  | .ok invocation => perform m d invocation

/-! ## Staying within the protocol -/

/-- On every exchange the request passed the gate and one response was read. -/
def Link.Agrees (link : Link) : Prop :=
  ∀ e ∈ link.log, ∃ reply, e.reply = some reply ∧ reply.dispatched = true

/-- The requests of a session, authentication included. -/
def requests (m : Machine) (token : String) : Invocation → List Payload
  | .help => []
  | .doctor => [.auth token, .ping, .stats]
  | .call req => [.auth token, req]
  | .batch opts => batchRequests m opts

/-- The frames of a session: its requests up to one whose length does not fit. -/
def frames (m : Machine) (d : Daemon) (inv : Invocation) : List Payload :=
  (requests m d.token inv).takeWhile d.fits

/-- A request that needs an authenticated connection. -/
def Payload.gated : Payload → Bool
  | .ping | .stats | .auth _ => false
  | _ => true

/-- No request of the client shuts the daemon down, so `dispatch` returns. -/
theorem dispatch_decoded {d : Daemon} {p : Payload} {req : Request} (h : d.decode p = some req) :
    ∃ r, Session.dispatch (some d.token) ⟨req, d.serve req, d.storeOk⟩ = some r := by
  cases p with
  | putBatch items =>
    obtain ⟨reqs, -, rfl⟩ := Option.map_eq_some_iff.mp h
    exact ⟨_, rfl⟩
  | auth token =>
    obtain rfl := Option.some.inj h
    by_cases heq : Session.subtleEq token d.token = true
    · exact ⟨.ok, by simp [Session.dispatch, heq]⟩
    · exact ⟨.err "invalid token", by simp [Session.dispatch, heq]⟩
  | _ =>
    obtain rfl := Option.some.inj h
    exact ⟨_, rfl⟩

/-- On an authenticated connection a readable frame is dispatched and answered. -/
theorem answer_authed {d : Daemon} {p : Payload} (h : d.Readable p) :
    ∃ r, answer d true p = some (⟨true, r⟩, true) := by
  obtain ⟨req, hreq⟩ := Option.isSome_iff_exists.mp h.2.2
  obtain ⟨r, hr⟩ := dispatch_decoded hreq
  refine ⟨r, ?_⟩
  rw [answer, if_pos h, hreq]
  simp [Session.handleFrame, hr]

/-- The right token opens the connection. -/
theorem answer_auth {d : Daemon} (h : d.Readable (.auth d.token)) :
    answer d false (.auth d.token) = some (⟨true, .ok⟩, true) := by
  have hself : Session.subtleEq d.token d.token = true := (Session.subtleEq_iff _ _).mpr rfl
  rw [answer, if_pos h]
  simp [Daemon.decode, Session.handleFrame, Session.ungated, Session.dispatch, hself,
    Session.isAuth, Session.isOk]

theorem answer_unreadable {d : Daemon} {authed : Bool} {p : Payload} (h : ¬ d.Readable p) :
    answer d authed p = none := if_neg h

/-- Without authentication a gated request is refused. -/
theorem answer_refused {d : Daemon} {p : Payload} (hgated : p.gated = true) (h : d.Readable p) :
    answer d false p = some (⟨false, Session.authRequired⟩, false) := by
  obtain ⟨req, hreq⟩ := Option.isSome_iff_exists.mp h.2.2
  have hungated : Session.ungated req = false := by
    cases p with
    | ping | stats | auth token => cases hgated
    | putBatch items =>
      obtain ⟨reqs, -, rfl⟩ := Option.map_eq_some_iff.mp hreq
      rfl
    | _ =>
      obtain rfl := Option.some.inj hreq
      rfl
  rw [answer, if_pos h, hreq]
  simp [Session.handleFrame, hungated]

theorem batchRequests_gated {m : Machine} {opts : BatchOpts} {p : Payload}
    (hp : p ∈ batchRequests m opts) : p.gated = true := by
  rw [batchRequests] at hp
  split at hp
  · cases hp
  · split at hp
    · obtain ⟨q, -, rfl⟩ := List.mem_map.mp hp
      rfl
    · obtain rfl := List.mem_singleton.mp hp
      rfl

section

variable {m : Machine} {d : Daemon}

/-- A frame that fits and can be read, on an authenticated connection. -/
theorem sendOnStream_authed (log : List Exchange) {p : Payload} (hfits : d.fits p = true)
    (hread : d.Readable p) :
    ∃ r, sendOnStream d ⟨true, log⟩ p = (⟨true, log ++ [⟨p, some ⟨true, r⟩⟩]⟩, some r) := by
  obtain ⟨r, hr⟩ := answer_authed hread
  exact ⟨r, by simp [sendOnStream, hfits, hr]⟩

theorem sendOnStream_unreadable {link : Link} {p : Payload} (hfits : d.fits p = true)
    (hread : ¬d.Readable p) :
    sendOnStream d link p = (⟨link.authed, link.log ++ [⟨p, none⟩]⟩, none) := by
  simp [sendOnStream, hfits, answer_unreadable hread]

/-- A request whose length does not fit is not written. -/
theorem sendOnStream_of_not_fits {link : Link} {p : Payload} (hfits : d.fits p = false) :
    sendOnStream d link p = (link, none) := by
  simp [sendOnStream, hfits]

/-- **A call** with the right token agrees with the daemon exactly when the frames it writes can be
read, and gets its response exactly when it writes both and they can be read. -/
theorem call_agrees_iff (htoken : m.token = some d.token) (req : Payload) :
    ((call m d req).1.Agrees ↔
        ∀ p ∈ [.auth d.token, req].takeWhile d.fits, d.Readable p) ∧
      ((call m d req).2.isSome ↔
        ∀ p ∈ [.auth d.token, req], d.fits p = true ∧ d.Readable p) := by
  by_cases hfits : d.fits (.auth d.token) = true
  · by_cases hauth : d.Readable (.auth d.token)
    · have hsend : sendOnStream d .connect (.auth d.token) =
          (⟨true, [⟨.auth d.token, some ⟨true, .ok⟩⟩]⟩, some .ok) := by
        simp [sendOnStream, hfits, Link.connect, answer_auth hauth]
      have hcall : call m d req =
          sendOnStream d ⟨true, [⟨.auth d.token, some ⟨true, .ok⟩⟩]⟩ req := by
        rw [call, htoken]
        simp only [hsend]
        rfl
      rw [hcall]
      by_cases hreqFits : d.fits req = true
      · by_cases hreq : d.Readable req
        · obtain ⟨r, hr⟩ :=
            sendOnStream_authed [⟨.auth d.token, some ⟨true, .ok⟩⟩] hreqFits hreq
          simp [hr, Link.Agrees, hfits, hauth, hreqFits, hreq]
        · simp [sendOnStream_unreadable hreqFits hreq, Link.Agrees, hfits, hreqFits, hreq]
      · have hnot := eq_false_of_ne_true hreqFits
        simp [sendOnStream_of_not_fits hnot, Link.Agrees, hfits, hauth, hnot]
    · have hcall : call m d req = (⟨false, [⟨.auth d.token, none⟩]⟩, none) := by
        rw [call, htoken]
        simp [sendOnStream_unreadable hfits hauth, Link.connect]
      simp [hcall, Link.Agrees, List.takeWhile_cons, hfits, hauth]
  · have hnot := eq_false_of_ne_true hfits
    have hcall : call m d req = (.connect, none) := by
      rw [call, htoken]
      simp [sendOnStream_of_not_fits hnot]
    simp [hcall, Link.connect, Link.Agrees, hnot]

/-- What was logged stays logged. -/
theorem sendAll_log (reqs : List Payload) (link : Link) {e : Exchange} (he : e ∈ link.log) :
    e ∈ (sendAll d link reqs).log := by
  induction reqs generalizing link with
  | nil => exact he
  | cons p rest ih =>
    rw [sendAll]
    have hkept : e ∈ (sendOnStream d link p).1.log := by
      rw [sendOnStream]
      split
      · split
        · exact List.mem_append_left _ he
        · exact List.mem_append_left _ he
      · exact he
    split
    · rename_i link' hsend
      rw [hsend] at hkept
      exact hkept
    · rename_i link' r hsend
      rw [hsend] at hkept
      exact ih link' hkept

/-- **A batch** with something to send never agrees: its first frame is refused, or the connection
is closed on it. -/
theorem sendAll_disagrees {req : Payload} (rest : List Payload) (hgated : req.gated = true)
    (hfits : d.fits req = true) : ¬ (sendAll d .connect (req :: rest)).Agrees := by
  intro h
  by_cases hread : d.Readable req
  · have hsend : sendOnStream d .connect req =
        (⟨false, [⟨req, some ⟨false, Session.authRequired⟩⟩]⟩, some Session.authRequired) := by
      simp [sendOnStream, hfits, Link.connect, answer_refused hgated hread]
    rw [sendAll, hsend] at h
    obtain ⟨reply, heq, hdispatched⟩ := h _ (sendAll_log rest _ (List.mem_singleton.mpr rfl))
    obtain rfl := Option.some.inj heq
    cases hdispatched
  · have hsend : sendOnStream d .connect req = (⟨false, [⟨req, none⟩]⟩, none) :=
      sendOnStream_unreadable hfits hread
    rw [sendAll, hsend] at h
    obtain ⟨reply, heq, -⟩ := h _ (List.mem_singleton.mpr rfl)
    cases heq

theorem perform_agrees_iff (htoken : m.token = some d.token) (inv : Invocation) :
    (∀ link ∈ perform m d inv, link.Agrees) ↔
      (∀ opts, inv = .batch opts → frames m d inv = []) ∧
        ∀ p ∈ frames m d inv, d.Readable p := by
  cases inv with
  | help => simp [perform, frames, requests]
  | call req => simp [perform, frames, requests, (call_agrees_iff htoken req).1]
  | doctor =>
    have hping := call_agrees_iff htoken .ping
    have hstats := call_agrees_iff htoken .stats
    rw [perform]
    split
    · rename_i link hcall
      rw [hcall] at hping
      have hno : ¬∀ p ∈ [.auth d.token, .ping], d.fits p = true ∧ d.Readable p := by
        rw [← hping.2]
        simp
      simp only [List.forall_mem_cons, List.not_mem_nil, hping.1, reduceCtorEq, false_implies,
        implies_true, true_and, and_true, frames, requests]
      -- one of the first two frames is not written or not read, so `Stats` is not asked for
      by_cases hauth : d.fits (.auth d.token) = true <;> by_cases hp : d.fits .ping = true <;>
        simp [List.takeWhile_cons, hauth, hp] at hno ⊢
      exact fun hread hreadPing => absurd hreadPing (hno hread)
    · rename_i link r hcall
      rw [hcall] at hping
      have hboth := hping.2.mp rfl
      simp only [List.forall_mem_cons, List.not_mem_nil, false_implies, implies_true,
        and_true] at hboth
      obtain ⟨⟨hauth, hreadAuth⟩, hp, hreadPing⟩ := hboth
      simp [hping.1, hstats.1, frames, requests, List.takeWhile_cons, hauth, hp, hreadAuth,
        hreadPing]
  | batch opts =>
    rw [perform]
    split
    · rename_i hnil
      simp [frames, requests, hnil]
    · rename_i req rest hcons
      have hgated : req.gated = true :=
        batchRequests_gated (by rw [hcons]; exact List.mem_cons_self)
      by_cases hfits : d.fits req = true
      · constructor
        · intro h
          exact absurd (h _ (List.mem_singleton.mpr rfl)) (sendAll_disagrees rest hgated hfits)
        · rintro ⟨hnone, -⟩
          have hnil := hnone opts rfl
          rw [frames, requests, hcons, List.takeWhile_cons_of_pos hfits] at hnil
          cases hnil
      · -- nothing was written
        have hnil : frames m d (.batch opts) = [] := by
          rw [frames, requests, hcons, List.takeWhile_cons_of_neg hfits]
        have hlog : (sendAll d .connect (req :: rest)).log = [] := by
          rw [sendAll, sendOnStream_of_not_fits (eq_false_of_ne_true hfits)]
          rfl
        simp [hnil, Link.Agrees, hlog]

end

/-- **Client and daemon agree** on the session protocol for a command line, given the right
token, exactly when it is no `batch` that writes a frame, and every frame it writes can be read. -/
theorem run_agrees_iff (m : Machine) (d : Daemon) (args : List String)
    (htoken : m.token = some d.token) :
    (∀ link ∈ run m d args, link.Agrees) ↔
      ∀ inv, parse m args = .ok inv →
        (∀ opts, inv = .batch opts → frames m d inv = []) ∧
          ∀ p ∈ frames m d inv, d.Readable p := by
  rw [run]
  cases hparse : parse m args with
  | error e => simp
  | ok inv => simp [perform_agrees_iff htoken]

/-- A client with the daemon's token and one query on its standard input. -/
def oneQuery : Machine where
  stdin := "hello"
  token := some "key"
  scope := none
  parseJson := fun _ => none

/-- A daemon with short frames. -/
def keyDaemon : Daemon where
  token := "key"
  frameLen := fun _ => 64
  f32OfInt := fun _ => 0
  f32OfReal := fun _ => 0
  serve := fun _ => .hits []
  storeOk := true

/-- `batch` sends its search without authenticating first, and the gate refuses it. -/
theorem batch_refused :
    oneQuery.token = some keyDaemon.token ∧
      (∃ link ∈ run oneQuery keyDaemon ["batch"], ∃ e ∈ link.log,
        e.reply = some ⟨false, Session.authRequired⟩) ∧
      ¬ ∀ link ∈ run oneQuery keyDaemon ["batch"], link.Agrees := by
  have hlink : ∃ link ∈ run oneQuery keyDaemon ["batch"], ∃ e ∈ link.log,
      e.reply = some ⟨false, Session.authRequired⟩ :=
    ⟨_, List.mem_singleton.mpr rfl, _, List.mem_singleton.mpr rfl, rfl⟩
  refine ⟨rfl, hlink, fun hagrees => ?_⟩
  obtain ⟨link, hmem, e, he, hreply⟩ := hlink
  obtain ⟨reply, hsome, hdispatched⟩ := hagrees link hmem e he
  obtain rfl := Option.some.inj (hreply.symm.trans hsome)
  cases hdispatched

/-- `ping` stays within the protocol. -/
theorem ping_agrees :
    oneQuery.token = some keyDaemon.token ∧
      ∀ link ∈ run oneQuery keyDaemon ["ping"], link.Agrees := by
  refine ⟨rfl, (run_agrees_iff oneQuery keyDaemon ["ping"] rfl).mpr ?_⟩
  have hparse : parse oneQuery ["ping"] = .ok (.call .ping) := rfl
  rw [hparse]
  intro inv hinv
  obtain rfl := Except.ok.inj hinv
  refine ⟨by simp, fun p hp => ?_⟩
  rcases List.mem_pair.mp hp with rfl | rfl
  · decide
  · decide

end Client

end SynapseMemory
