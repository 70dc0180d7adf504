import SynapseMemory.Proto

/-!
# A connection to the daemon

`handle_conn` reads one frame after the other. It keeps a flag for the connection: without it a
request other than `Ping`, `Stats` or `Auth` is refused on the spot; with it every request goes to
`dispatch`. The flag is set when a dispatched `Auth` is answered `Ok`, and never cleared.

A run of the loop is recorded as its events: frames received, requests dispatched, responses
sent. Two facts hold of every run:

* a gated request is dispatched only after an `Auth` with the expected token was received
  (`loop_gated`);
* every frame is answered by one response before the next frame is read, up to a `Shutdown`, on
  which the process exits in the middle of `dispatch`, or a frame whose `dispatch` blocks itself
  (`loop_answers`).
-/

namespace SynapseMemory

namespace Session

open Proto

/-! ## Comparing tokens -/

/-- The bytes of a string. -/
def bytes (s : String) : List UInt8 := s.toUTF8.data.toList

/-- Constant-time comparison: differences are collected over all bytes. -/
def subtleEq (a b : String) : Bool :=
  if (bytes a).length ≠ (bytes b).length then false
  else ((bytes a).zip (bytes b)).foldl (fun acc p => acc ||| (p.1 ^^^ p.2)) 0 == 0

theorem foldl_or_eq_zero (ps : List (UInt8 × UInt8)) (acc : UInt8) :
    ps.foldl (fun acc p => acc ||| (p.1 ^^^ p.2)) acc = 0 ↔
      acc = 0 ∧ ∀ p ∈ ps, p.1 = p.2 := by
  induction ps generalizing acc with
  | nil => simp
  | cons p rest ih =>
    rw [List.foldl_cons, ih, UInt8.or_eq_zero_iff, UInt8.xor_eq_zero_iff]
    simp [and_assoc]

theorem zip_agree_iff {xs ys : List UInt8} (h : xs.length = ys.length) :
    (∀ p ∈ xs.zip ys, p.1 = p.2) ↔ xs = ys := by
  induction xs generalizing ys with
  | nil =>
    have : ys = [] := List.length_eq_zero_iff.mp h.symm
    simp [this]
  | cons x xs ih =>
    cases ys with
    | nil => cases h
    | cons y ys =>
      rw [List.zip_cons_cons, List.forall_mem_cons, ih (Nat.succ.inj h), List.cons.injEq]

/-- **Tokens** are accepted when they agree byte for byte. -/
theorem subtleEq_iff (a b : String) : subtleEq a b = true ↔ bytes a = bytes b := by
  rw [subtleEq]
  split
  · rename_i hlen
    simp only [Bool.false_eq_true, false_iff]
    exact fun h => hlen (congrArg List.length h)
  · rename_i hlen
    rw [not_not] at hlen
    rw [beq_iff_eq, foldl_or_eq_zero, zip_agree_iff hlen]
    simp

/-! ## The loop -/

/-- A decoded frame, with the answer that the other arms of `dispatch` give to it in the state
of the daemon at that moment, and whether the store call of a `Merge` or a `Delete` goes through. -/
structure Frame where
  req : Request
  served : Response
  storeOk : Bool

/-- A `Merge` or a `Delete` whose store call goes through asks for the store again in `audit`, under
the guard of its own `match`. -/
def Frame.selfBlocks (f : Frame) : Bool :=
  match f.req with
  | .merge _ _ | .delete _ => f.storeOk
  | _ => false

/-- What happens on a connection. -/
inductive Event where
  | received (req : Request)
  | dispatched (req : Request)
  | sent (resp : Response)

/-- `dispatch`, of which only the arms for `Ping`, `Auth` and `Shutdown` matter here. It does not
return from `Shutdown`, nor when it waits for a lock that it holds. -/
def dispatch (expected : Option String) (f : Frame) : Option Response :=
  match f.req with
  | .ping => some .pong
  | .auth token =>
    match expected with
    | some k => if subtleEq token k then some .ok else some (.err "invalid token")
    | none => some .ok
  | .shutdown => none
  | _ => if f.selfBlocks then none else some f.served

/-- The requests that pass the gate without authentication. -/
def ungated : Request → Bool
  | .ping | .stats | .auth _ => true
  | _ => false

/-- `matches!(req, Request::Auth { .. })` -/
def isAuth : Request → Bool
  | .auth _ => true
  | _ => false

/-- `matches!(r, Response::Ok)` -/
def isOk : Response → Bool
  | .ok => true
  | _ => false

/-- The refusal of the gate. -/
def authRequired : Response := .err "auth required: send Auth\x7btoken\x7d"

/-- One pass of the loop: the events after the frame was received, and the flag for the next
pass unless there is none. -/
def handleFrame (expected : Option String) (authed : Bool) (f : Frame) :
    List Event × Option Bool :=
  if !authed && !ungated f.req then ([.sent authRequired], some authed)
  else
    match dispatch expected f with
    | none => ([.dispatched f.req], none)
    | some r => ([.dispatched f.req, .sent r], some (authed || (isAuth f.req && isOk r)))

/-- The loop over the frames that arrive. -/
def loop (expected : Option String) : Bool → List Frame → List Event
  | _, [] => []
  | authed, f :: rest =>
    match handleFrame expected authed f with
    | (events, none) => .received f.req :: events
    | (events, some authed) => .received f.req :: events ++ loop expected authed rest

/-- A connection; the flag is set from the start when the daemon expects no token. -/
def handleConn (expected : Option String) (frames : List Frame) : List Event :=
  loop expected expected.isNone frames

/-! ## The gate -/

/-- What one pass can do. -/
theorem handleFrame_cases {expected : Option String} {authed : Bool} {f : Frame}
    {events : List Event} {next : Option Bool}
    (h : handleFrame expected authed f = (events, next)) :
    (authed = false ∧ ungated f.req = false ∧ events = [.sent authRequired] ∧ next = some false) ∨
    ((authed = true ∨ ungated f.req = true) ∧
      ((dispatch expected f = none ∧ events = [.dispatched f.req] ∧ next = none) ∨
        ∃ r, dispatch expected f = some r ∧ events = [.dispatched f.req, .sent r] ∧
          next = some (authed || (isAuth f.req && isOk r)))) := by
  rw [handleFrame] at h
  split at h
  · rename_i hgate
    obtain ⟨rfl, rfl⟩ := Prod.mk.inj h
    cases authed with
    | true => cases hgate
    | false => exact .inl ⟨rfl, by simpa using hgate, rfl, rfl⟩
  · rename_i hgate
    have hpass : authed = true ∨ ungated f.req = true := by
      cases authed with
      | true => exact .inl rfl
      | false => exact .inr (by simpa using hgate)
    split at h
    · rename_i hd
      obtain ⟨rfl, rfl⟩ := Prod.mk.inj h
      exact .inr ⟨hpass, .inl ⟨hd, rfl, rfl⟩⟩
    · rename_i r hd
      obtain ⟨rfl, rfl⟩ := Prod.mk.inj h
      exact .inr ⟨hpass, .inr ⟨r, hd, rfl, rfl⟩⟩

/-- Only an `Auth` with the expected bytes is answered `Ok`. -/
theorem dispatch_auth_ok {k : String} {f : Frame} {r : Response}
    (hd : dispatch (some k) f = some r) (hauth : (isAuth f.req && isOk r) = true) :
    ∃ t, f.req = .auth t ∧ bytes t = bytes k := by
  rw [Bool.and_eq_true] at hauth
  cases hreq : f.req with
  | auth t =>
    simp only [dispatch, hreq] at hd
    split at hd
    · rename_i heq
      exact ⟨t, rfl, (subtleEq_iff t k).mp heq⟩
    · obtain rfl := Option.some.inj hd
      cases hauth.2
  | _ =>
    rw [hreq] at hauth
    cases hauth.1

/-- The frame carries an `Auth` with the expected bytes. -/
def matching (k : String) : Request → Bool
  | .auth t => bytes t == bytes k
  | _ => false

/-- Read from the left, with `b` telling whether a matching `Auth` was received: no gated request
is dispatched before one. -/
def Gated (k : String) : Bool → List Event → Prop
  | _, [] => True
  | b, .received req :: rest => Gated k (b || matching k req) rest
  | b, .dispatched req :: rest => (b = true ∨ ungated req = true) ∧ Gated k b rest
  | b, .sent _ :: rest => Gated k b rest

/-- **The gate along a run**: the flag is never set before a matching `Auth` was received. -/
theorem loop_gated {k : String} (frames : List Frame) {authed b : Bool}
    (hb : authed = true → b = true) : Gated k b (loop (some k) authed frames) := by
  induction frames generalizing authed b with
  | nil => trivial
  | cons f rest ih =>
    rw [loop]
    obtain ⟨events, next, hf⟩ : ∃ events next, handleFrame (some k) authed f = (events, next) :=
      ⟨_, _, rfl⟩
    rw [hf]
    have hb' : authed = true → (b || matching k f.req) = true := fun h => by simp [hb h]
    rcases handleFrame_cases hf with ⟨rfl, -, rfl, rfl⟩ | ⟨hpass, hdispatch⟩
    · exact ih (by simp)
    · have hpass' : (b || matching k f.req) = true ∨ ungated f.req = true := hpass.imp_left hb'
      rcases hdispatch with ⟨-, rfl, rfl⟩ | ⟨r, hd, rfl, rfl⟩
      · exact ⟨hpass', trivial⟩
      · refine ⟨hpass', ih fun hnext => ?_⟩
        rcases Bool.or_eq_true _ _ |>.mp hnext with hauthed | hauth
        · exact hb' hauthed
        · obtain ⟨t, hreq, hbytes⟩ := dispatch_auth_ok hd hauth
          simp [matching, hreq, hbytes]

/-- Read at one place: before a gated request is dispatched, a matching `Auth` was received. -/
theorem Gated.authenticated {k : String} {b : Bool} {before after : List Event} {req : Request}
    (h : Gated k b (before ++ .dispatched req :: after)) (hreq : ungated req = false) :
    b = true ∨ ∃ t, Event.received (.auth t) ∈ before ∧ bytes t = bytes k := by
  induction before generalizing b with
  | nil =>
    rcases h.1 with hb | hungated
    · exact .inl hb
    · rw [hreq] at hungated
      cases hungated
  | cons e rest ih =>
    cases e with
    | received r =>
      rcases ih h with hb | ⟨t, ht, hbytes⟩
      · rcases Bool.or_eq_true _ _ |>.mp hb with hb | hmatch
        · exact .inl hb
        · cases r with
          | auth t => exact .inr ⟨t, List.mem_cons_self, by simpa [matching] using hmatch⟩
          | _ => cases hmatch
      · exact .inr ⟨t, List.mem_cons_of_mem _ ht, hbytes⟩
    | dispatched r =>
      rcases ih h.2 with hb | ⟨t, ht, hbytes⟩
      · exact .inl hb
      · exact .inr ⟨t, List.mem_cons_of_mem _ ht, hbytes⟩
    | sent r =>
      rcases ih h with hb | ⟨t, ht, hbytes⟩
      · exact .inl hb
      · exact .inr ⟨t, List.mem_cons_of_mem _ ht, hbytes⟩

/-! ## One response for each frame -/

/-- The frames are answered one by one: each is received, dispatched or refused, and answered
before the next. -/
inductive Answered : List Request → List Event → Prop
  | nil : Answered [] []
  | refused (req : Request) (resp : Response) {reqs : List Request} {events : List Event} :
      Answered reqs events → Answered (req :: reqs) (.received req :: .sent resp :: events)
  | served (req : Request) (resp : Response) {reqs : List Request} {events : List Event} :
      Answered reqs events →
        Answered (req :: reqs) (.received req :: .dispatched req :: .sent resp :: events)

/-- A response. -/
def Event.isSent : Event → Bool
  | .sent _ => true
  | _ => false

theorem Answered.countP_sent {reqs : List Request} {events : List Event}
    (h : Answered reqs events) : events.countP Event.isSent = reqs.length := by
  induction h with
  | nil => rfl
  | refused req resp _ ih => simp [List.countP_cons, Event.isSent, ih]
  | served req resp _ ih => simp [List.countP_cons, Event.isSent, ih]

/-- The run comes to the dispatch of a frame which is a `Shutdown`, and ends there, or which blocks
itself. What the events after a frame of the second kind are is not said. -/
def StopsAt (f : Frame) (events : List Event) : Prop :=
  ∃ more, events = .received f.req :: .dispatched f.req :: more ∧
    ((f.req = .shutdown ∧ more = []) ∨ f.selfBlocks = true)

/-- Only a `Shutdown` and a request that blocks itself do not return. -/
theorem of_dispatch_eq_none {expected : Option String} {f : Frame}
    (h : dispatch expected f = none) : f.req = .shutdown ∨ f.selfBlocks = true := by
  cases hreq : f.req with
  | shutdown => exact .inl rfl
  | ping =>
    rw [dispatch, hreq] at h
    cases h
  | auth token =>
    simp only [dispatch, hreq] at h
    split at h
    next => split at h <;> cases h
    next => cases h
  | _ =>
    simp only [dispatch, hreq] at h
    split at h
    next hblocks => exact .inr hblocks
    next => cases h

theorem stopsAt_of_dispatch {expected : Option String} {f : Frame}
    (h : dispatch expected f = none) : StopsAt f [.received f.req, .dispatched f.req] :=
  ⟨[], rfl, (of_dispatch_eq_none h).imp_left fun hreq => ⟨hreq, rfl⟩⟩

/-- **The responses along a run**: every frame is answered, or the frames before some frame are
and the run comes to its dispatch. -/
theorem loop_answers (expected : Option String) (authed : Bool) (frames : List Frame) :
    Answered (frames.map Frame.req) (loop expected authed frames) ∨
      ∃ before f after events last, frames = before ++ f :: after ∧
        loop expected authed frames = events ++ last ∧
        Answered (before.map Frame.req) events ∧ StopsAt f last := by
  induction frames generalizing authed with
  | nil => exact .inl .nil
  | cons f rest ih =>
    rw [loop]
    obtain ⟨events, next, hf⟩ : ∃ events next, handleFrame expected authed f = (events, next) :=
      ⟨_, _, rfl⟩
    rw [hf]
    rcases handleFrame_cases hf with ⟨rfl, -, rfl, rfl⟩ | ⟨-, ⟨hd, rfl, rfl⟩ | ⟨r, -, rfl, rfl⟩⟩
    · rcases ih false with hall | ⟨before, f', after, events, last, rfl, hloop, hans, hstop⟩
      · exact .inl (.refused f.req authRequired hall)
      · refine .inr ⟨f :: before, f', after, _, last, rfl, ?_,
          .refused f.req authRequired hans, hstop⟩
        simp [hloop]
    · exact .inr ⟨[], f, rest, [], _, rfl, rfl, .nil, stopsAt_of_dispatch hd⟩
    · rcases ih (authed || (isAuth f.req && isOk r)) with
        hall | ⟨before, f', after, events, last, rfl, hloop, hans, hstop⟩
      · exact .inl (.served f.req r hall)
      · refine .inr ⟨f :: before, f', after, _, last, rfl, ?_, .served f.req r hans, hstop⟩
        simp [hloop]

/-- **The session protocol**: with an expected token, a request other than `Ping`, `Stats` and
`Auth` is dispatched only after an `Auth` whose token agrees with it byte for byte; and every
frame gets one response, in order, up to a `Shutdown` that is dispatched and ends the process, or a
dispatched `Merge` or `Delete` that blocks itself. -/
theorem handleConn_protocol (k : String) (frames : List Frame) :
    (∀ before req after, handleConn (some k) frames = before ++ .dispatched req :: after →
      ungated req = false → ∃ t, Event.received (.auth t) ∈ before ∧ bytes t = bytes k) ∧
    (Answered (frames.map Frame.req) (handleConn (some k) frames) ∨
      ∃ before f after events last, frames = before ++ f :: after ∧
        handleConn (some k) frames = events ++ last ∧
        Answered (before.map Frame.req) events ∧ StopsAt f last) := by
  refine ⟨fun before req after h hreq => ?_, loop_answers _ _ _⟩
  have hgated : Gated k false (handleConn (some k) frames) := loop_gated frames (by simp)
  rw [h] at hgated
  rcases hgated.authenticated hreq with hfalse | hauth
  · cases hfalse
  · exact hauth

/-- A client that authenticates and asks for a shutdown gets one response to its two frames. -/
theorem shutdown_unanswered :
    ¬ Answered [.auth "key", .shutdown]
      (handleConn (some "key") [⟨.auth "key", .ok, true⟩, ⟨.shutdown, .ok, true⟩]) := by
  intro h
  have hcount := h.countP_sent
  revert hcount
  decide +kernel

end Session

end SynapseMemory
