import SynapseMemory.Federation

/-!
# Synchronising two nodes

`sync_peer` of one node against `handle_stream` of another, over one connection that is reliable and
in order. The two are processes of their own: the client sends a state vector for each of its
documents and waits for a reply, the server reads one message, answers it and closes.

The client applies what the reply brings. It never sends an update, so that the server holds after
any run what it held before (`held_run`), and the client's updates are all there exactly if they
were (`sync_complete_iff`). Nor does it get further than its first document (`ok_one_document`).
-/

namespace SynapseMemory.Federation

open Transition
open Provenance (Ed25519)

/-- The codec. What it encodes it reads back, and of what is cut short it reads nothing. -/
class MsgPack where
  toVec : Msg → Except String Bytes
  fromSlice : Bytes → Except String Msg
  fromSlice_toVec : ∀ {m b}, toVec m = .ok b → fromSlice b = .ok m
  fromSlice_cut : ∀ {m b p}, toVec m = .ok b → p <+: b → p ≠ b → ∃ e, fromSlice p = .error e

/-! ## Frames -/

/-- The length is cut to 32 bits. -/
def writeFramed (data : Bytes) : Bytes := Bytes.ofNat 4 data.length ++ data

/-- The first frame and what comes after it, if it is all there. -/
def readFramed (b : Bytes) : Option (Except Error (Bytes × Bytes)) :=
  match Bytes.readExact 4 b with
  | none => none
  | some (lenBuf, rest) =>
    let len := Bytes.toNat lenBuf
    if len > 64 * 1024 * 1024 then some (.error (.other "frame too large"))
    else (Bytes.readExact len rest).map .ok

theorem readFramed_nil : readFramed [] = none := rfl

/-- What is read of a frame is a part of what was written, or all of it and nothing more. -/
theorem readFramed_writeFramed {data rest p tail : Bytes}
    (h : readFramed (writeFramed data ++ rest) = some (.ok (p, tail))) :
    p <+: data ∧ (p = data → tail = rest) := by
  have hlen : Bytes.toNat (Bytes.ofNat 4 data.length) ≤ data.length := by
    rw [Bytes.toNat_ofNat]
    exact Nat.mod_le _ _
  rw [readFramed, writeFramed, List.append_assoc,
    Bytes.readExact_append (Bytes.length_ofNat 4 data.length)] at h
  dsimp only at h
  split_ifs at h with hlimit
  · cases h
  · obtain ⟨q, hq, heq⟩ := Option.map_eq_some_iff.mp h
    cases heq
    obtain ⟨hlength, happend⟩ := Bytes.readExact_eq_some.mp hq
    refine ⟨List.prefix_of_prefix_length_le ⟨tail, happend.symm⟩ (List.prefix_append data rest)
      (hlength.trans_le hlen), fun hp => ?_⟩
    subst hp
    exact (List.append_cancel_left happend).symm

/-- What `read_exact` says when the other end has closed. -/
def Error.eof : Error := .other "failed to fill whole buffer"

section Sync

variable [Crdt] [MsgPack]

/-! ## The two processes -/

/-- `sync_peer`: before a document, waiting for the reply for one, or at its end. -/
inductive Client where
  | turn (docIds : List String)
  | waiting (docId : String) (rest : List String)
  | done (result : Except Error Unit)

/-- `handle_stream`, which closes the connection when it is done. -/
inductive Server where
  | reading
  | done (result : Except Error Unit)

/-- The two processes, their stores, and the bytes on the way. -/
structure Sync where
  a : DocStore
  b : DocStore
  client : Client
  server : Server
  toServer : Bytes
  toClient : Bytes

/-- A step of one of the processes. What a client writes after the server has closed may be
reported as an error. -/
inductive SyncAct where
  | clientTurn (delivered : Bool)
  | clientRead
  | serverRead

namespace Sync

/-- The client has taken the ids of its documents, in some order. -/
def start (a b : DocStore) (docIds : List String) : Sync := ⟨a, b, .turn docIds, .reading, [], []⟩

/-- The client at the top of its loop. -/
def clientTurn (s : Sync) (delivered : Bool) : Option Sync :=
  match s.client with
  | .turn [] => some { s with client := .done (.ok ()) }
  | .turn (docId :: rest) =>
    let (a, sv) := s.a.stateVector docId
    match MsgPack.toVec (.syncStep1 docId sv) with
    | .error e => some { s with a, client := .done (.error (.other e)) }
    | .ok step1 =>
      match s.server, delivered with
      | .done _, false => some { s with a, client := .done (.error (.io "Broken pipe")) }
      | _, _ =>
        some { s with
          a
          client := .waiting docId rest
          toServer := s.toServer ++ writeFramed step1 }
  | _ => none

/-- What a turn of the client can do. -/
theorem clientTurn_cases {s s' : Sync} {delivered : Bool} (h : s.clientTurn delivered = some s') :
    (s.client = .turn [] ∧ s' = { s with client := .done (.ok ()) }) ∨
      ∃ docId rest, s.client = .turn (docId :: rest) ∧ s'.b = s.b ∧ s'.server = s.server ∧
        s'.toClient = s.toClient ∧
        ((∃ e, s'.client = .done (.error e) ∧ s'.toServer = s.toServer) ∨
          ∃ sv step1, MsgPack.toVec (.syncStep1 docId sv) = .ok step1 ∧
            s'.client = .waiting docId rest ∧ s'.toServer = s.toServer ++ writeFramed step1) := by
  rw [clientTurn] at h
  split at h
  next hclient =>
    cases h
    exact .inl ⟨hclient, rfl⟩
  next docId rest hclient =>
    refine .inr ⟨docId, rest, hclient, ?_⟩
    dsimp only at h
    split at h
    next e hvec =>
      cases h
      exact ⟨rfl, rfl, rfl, .inl ⟨_, rfl, rfl⟩⟩
    next step1 hvec =>
      split at h
      · cases h
        exact ⟨rfl, rfl, rfl, .inl ⟨_, rfl, rfl⟩⟩
      · cases h
        exact ⟨rfl, rfl, rfl, .inr ⟨_, step1, hvec, rfl, rfl⟩⟩
  · cases h

/-- What the client does with a reply: its store, and where it goes on. -/
def takeReply (a : DocStore) (docId : String) (rest : List String) (reply : Bytes) :
    DocStore × Client :=
  match MsgPack.fromSlice reply with
  | .error e => (a, .done (.error (.other e)))
  | .ok (.syncStep2 rid update) =>
    if rid = docId ∧ update ≠ [] then
      match a.applyUpdate rid update with
      | (a, .error e) => (a, .done (.error e))
      | (a, .ok _) => (a, .turn rest)
    else (a, .turn rest)
  | .ok _ => (a, .turn rest)

theorem takeReply_cases (a : DocStore) (docId : String) (rest : List String) (reply : Bytes) :
    (∃ e, (takeReply a docId rest reply).2 = .done (.error e)) ∨
      (takeReply a docId rest reply).2 = .turn rest ∧ ∃ m, MsgPack.fromSlice reply = .ok m := by
  rw [takeReply]
  split
  · exact .inl ⟨_, rfl⟩
  next rid update hslice =>
    split_ifs
    · rcases a.applyUpdate rid update with ⟨a', e | full⟩
      · exact .inl ⟨e, rfl⟩
      · exact .inr ⟨rfl, _, hslice⟩
    · exact .inr ⟨rfl, _, hslice⟩
  next m _ hslice => exact .inr ⟨rfl, m, hslice⟩

/-- The client waits until there is a frame, or the end of the stream. -/
def clientRead (s : Sync) : Option Sync :=
  match s.client with
  | .waiting docId rest =>
    match readFramed s.toClient with
    | some (.error e) => some { s with client := .done (.error e) }
    | some (.ok (reply, tail)) =>
      let (a, client) := takeReply s.a docId rest reply
      some { s with a, client, toClient := tail }
    | none =>
      match s.server with
      | .done _ => some { s with client := .done (.error .eof) }
      | .reading => none
  | _ => none

/-- What a read of the client can do. -/
theorem clientRead_cases {s s' : Sync} (h : s.clientRead = some s') :
    ∃ docId rest, s.client = .waiting docId rest ∧ s'.b = s.b ∧ s'.server = s.server ∧
      s'.toServer = s.toServer ∧
      ((∃ e, s'.client = .done (.error e)) ∨
        ∃ reply m, readFramed s.toClient = some (.ok (reply, s'.toClient)) ∧
          MsgPack.fromSlice reply = .ok m ∧ s'.client = .turn rest) := by
  rw [clientRead] at h
  split at h
  next docId rest hclient =>
    refine ⟨docId, rest, hclient, ?_⟩
    split at h
    · cases h
      exact ⟨rfl, rfl, rfl, .inl ⟨_, rfl⟩⟩
    next reply tail hread =>
      cases h
      refine ⟨rfl, rfl, rfl, ?_⟩
      rcases takeReply_cases s.a docId rest reply with ⟨e, he⟩ | ⟨hturn, m, hslice⟩
      · exact .inl ⟨e, he⟩
      · exact .inr ⟨reply, m, hread, hslice, hturn⟩
    · split at h
      · cases h
        exact ⟨rfl, rfl, rfl, .inl ⟨_, rfl⟩⟩
      · cases h
  · cases h

/-! ## The server -/

variable [Ed25519] [PublicKeyBytes]

/-- `handle_stream` after it has read a frame: the store, and the bytes that it writes. -/
def handleFrame (store : DocStore) (buf : Bytes) : DocStore × Except Error Bytes :=
  match MsgPack.fromSlice buf with
  | .error e => (store, .error (.other e))
  | .ok (.syncStep1 docId sv) =>
    match store.diffSince docId sv with
    | (store, .error e) => (store, .error e)
    | (store, .ok update) =>
      match MsgPack.toVec (.syncStep2 docId update) with
      | .error e => (store, .error (.other e))
      | .ok reply => (store, .ok (writeFramed reply))
  | .ok (.update docId update sig vk) =>
    match applySigned store docId update sig vk with
    | (store, .error e) => (store, .error e)
    | (store, .ok ()) => (store, .ok [])
  | .ok (.syncStep2 _ _) => (store, .ok [])

/-- What the server writes is nothing, or one message. -/
theorem handleFrame_ok {store : DocStore} {buf written : Bytes}
    (h : (handleFrame store buf).2 = .ok written) :
    written = [] ∨ ∃ m reply, MsgPack.toVec m = .ok reply ∧ written = writeFramed reply := by
  rw [handleFrame] at h
  split at h
  · cases h
  next docId sv _ =>
    rcases hdiff : store.diffSince docId sv with ⟨store', e | update⟩ <;> rw [hdiff] at h
    · cases h
    · dsimp only at h
      split at h
      · cases h
      next reply hvec =>
        cases h
        exact .inr ⟨_, reply, hvec, rfl⟩
  next docId update sig vk _ =>
    rcases happly : applySigned store docId update sig vk with ⟨store', e | _⟩ <;>
      rw [happly] at h
    · cases h
    · cases h
      exact .inl rfl
  · cases h
    exact .inl rfl

/-- The turn of the server's loop that reads a frame and answers it. -/
def serverRead (s : Sync) : Option Sync :=
  match s.server with
  | .done _ => none
  | .reading =>
    match readFramed s.toServer with
    | some (.error e) => some { s with server := .done (.error e) }
    | some (.ok (buf, tail)) =>
      match handleFrame s.b buf with
      | (b, .error e) => some { s with b, toServer := tail, server := .done (.error e) }
      | (b, .ok written) => some { s with
          b, toServer := tail, server := .done (.ok ()), toClient := s.toClient ++ written }
    | none =>
      match s.client with
      | .done _ => some { s with server := .done (.error .eof) }
      | _ => none

/-- What a read of the server can do. -/
theorem serverRead_cases {s s' : Sync} (h : s.serverRead = some s') :
    s.server = .reading ∧ (∃ r, s'.server = .done r) ∧ s'.client = s.client ∧
      ((s'.b = s.b ∧ s'.toClient = s.toClient ∧
          (readFramed s.toServer = none → ∃ r, s.client = .done r)) ∨
        ∃ buf tail, readFramed s.toServer = some (.ok (buf, tail)) ∧
          s'.b = (handleFrame s.b buf).1 ∧
          (s'.toClient = s.toClient ∨ ∃ m reply, MsgPack.toVec m = .ok reply ∧
            s'.toClient = s.toClient ++ writeFramed reply)) := by
  rw [serverRead] at h
  split at h
  · cases h
  next hserver =>
    refine ⟨hserver, ?_⟩
    split at h
    next e hread =>
      cases h
      exact ⟨⟨_, rfl⟩, rfl, .inl ⟨rfl, rfl, fun hnone => by cases hread.symm.trans hnone⟩⟩
    next buf tail hread =>
      rcases hframe : handleFrame s.b buf with ⟨b, e | written⟩ <;> rw [hframe] at h <;> cases h
      · exact ⟨⟨_, rfl⟩, rfl, .inr ⟨buf, tail, hread, by rw [hframe], .inl rfl⟩⟩
      · refine ⟨⟨_, rfl⟩, rfl, .inr ⟨buf, tail, hread, by rw [hframe], ?_⟩⟩
        rcases handleFrame_ok (congrArg Prod.snd hframe) with rfl | ⟨m, reply, hvec, rfl⟩
        · exact .inl (List.append_nil _)
        · exact .inr ⟨m, reply, hvec, rfl⟩
    · split at h
      next r hclient =>
        cases h
        exact ⟨⟨_, rfl⟩, rfl, .inl ⟨rfl, rfl, fun _ => ⟨r, hclient⟩⟩⟩
      · cases h

/-- One step of either side. It is `none` when that side is done or has nothing to read. -/
def step (s : Sync) : SyncAct → Option Sync
  | .clientTurn delivered => s.clientTurn delivered
  | .clientRead => s.clientRead
  | .serverRead => s.serverRead

/-! ## What the server holds -/

/-- A state vector, or what is left of it, changes nothing that is held. -/
theorem held_handleFrame {store : DocStore} {docId : String} {sv step1 p : Bytes}
    (hvec : MsgPack.toVec (.syncStep1 docId sv) = .ok step1) (hp : p <+: step1) :
    (handleFrame store p).1.held = store.held := by
  rw [handleFrame]
  by_cases heq : p = step1
  · rw [heq, MsgPack.fromSlice_toVec hvec]
    have hheld := store.held_diffSince docId sv
    dsimp only
    rcases hdiff : store.diffSince docId sv with ⟨store', e | update⟩ <;> rw [hdiff] at hheld
    · exact hheld
    · dsimp only
      split
      · exact hheld
      · exact hheld
  · obtain ⟨e, he⟩ := MsgPack.fromSlice_cut hvec hp heq
    rw [he]

/-- The server holds what it held, and the first message on its way to it is a state vector. -/
structure Untouched (b : DocStore) (s : Sync) : Prop where
  held_eq : s.b.held = b.held
  asked : s.server = .reading → s.toServer = [] ∨ ∃ docId sv step1 tail,
    MsgPack.toVec (.syncStep1 docId sv) = .ok step1 ∧ s.toServer = writeFramed step1 ++ tail

/-- A step leaves the documents that nobody asked for as they are. -/
theorem untouched_step {b : DocStore} {s s' : Sync} {act : SyncAct} (hs : Untouched b s)
    (h : s.step act = some s') : Untouched b s' := by
  cases act with
  | clientTurn delivered =>
    rcases clientTurn_cases h with ⟨-, rfl⟩ | ⟨docId, rest, -, hb, hserver, -, ⟨e, -, hto⟩ |
      ⟨sv, step1, hvec, -, hto⟩⟩
    · exact ⟨hs.held_eq, hs.asked⟩
    · exact ⟨by rw [hb, hs.held_eq], fun hreading => hto ▸ hs.asked (hserver ▸ hreading)⟩
    · refine ⟨by rw [hb, hs.held_eq], fun hreading => .inr ?_⟩
      rw [hto]
      rcases hs.asked (hserver ▸ hreading) with hnil | ⟨docId', sv', first, tail, hfirst, heq⟩
      · exact ⟨docId, sv, step1, [], hvec, by rw [hnil, List.nil_append, List.append_nil]⟩
      · exact ⟨docId', sv', first, _, hfirst, by rw [heq, List.append_assoc]⟩
  | clientRead =>
    obtain ⟨docId, rest, -, hb, hserver, hto, -⟩ := clientRead_cases h
    exact ⟨by rw [hb, hs.held_eq], fun hreading => hto ▸ hs.asked (hserver ▸ hreading)⟩
  | serverRead =>
    obtain ⟨hreading, ⟨r, hdone⟩, -, ⟨hb, -⟩ | ⟨buf, tail, hread, hb, -⟩⟩ := serverRead_cases h
    · exact ⟨by rw [hb, hs.held_eq], fun hreading' => by cases hdone.symm.trans hreading'⟩
    · refine ⟨?_, fun hreading' => by cases hdone.symm.trans hreading'⟩
      rw [hb, ← hs.held_eq]
      rcases hs.asked hreading with hnil | ⟨docId, sv, step1, rest, hvec, heq⟩
      · rw [hnil, readFramed_nil] at hread
        cases hread
      · rw [heq] at hread
        exact held_handleFrame hvec (readFramed_writeFramed hread).1

/-- However the two processes take turns, the server holds what it held. -/
theorem held_run {a b : DocStore} {docIds : List String} {acts : List SyncAct} {s : Sync}
    (hrun : run step (start a b docIds) acts = some s) : s.b.held = b.held :=
  (run_preserves (Untouched b) (fun _ _ _ => untouched_step) hrun ⟨rfl, fun _ => .inl rfl⟩).held_eq

/-- **When a synchronisation is complete.** In every state of the two processes, so also when
`sync_peer` has returned `Ok`, the server holds the client's updates of every document that the
client sent if and only if it held them before. -/
theorem sync_complete_iff (a b : DocStore) (docIds : List String) {acts : List SyncAct} {s : Sync}
    (hrun : run step (start a b docIds) acts = some s) :
    (∀ docId ∈ docIds, a.held docId ⊆ s.b.held docId) ↔
      ∀ docId ∈ docIds, a.held docId ⊆ b.held docId := by
  rw [held_run hrun]

/-! ## How far the client gets -/

/-- Where the two processes can be: the server answers the first message, and after that it is
gone. -/
inductive Phase (docIds : List String) (s : Sync) : Prop where
  | start (hclient : s.client = .turn docIds) (hserver : s.server = .reading)
      (hto : s.toServer = []) (hfrom : s.toClient = [])
  | asked (docId : String) (rest : List String) (hids : docIds = docId :: rest)
      (hclient : s.client = .waiting docId rest) (hserver : s.server = .reading)
      (hfrom : s.toClient = [])
  | answered (docId : String) (rest : List String) (r : Except Error Unit)
      (hids : docIds = docId :: rest) (hclient : s.client = .waiting docId rest)
      (hserver : s.server = .done r)
      (hfrom : s.toClient = [] ∨ ∃ m reply, MsgPack.toVec m = .ok reply ∧
        s.toClient = writeFramed reply)
  | alone (docId : String) (rest : List String) (r : Except Error Unit)
      (hids : docIds = docId :: rest) (hclient : s.client = .turn rest)
      (hserver : s.server = .done r) (hfrom : s.toClient = [])
  | unheard (docId : String) (rest : List String) (r : Except Error Unit)
      (hclient : s.client = .waiting docId rest) (hserver : s.server = .done r)
      (hfrom : s.toClient = [])
  | failed (e : Error) (hclient : s.client = .done (.error e))
  | finished (hclient : s.client = .done (.ok ())) (hids : docIds.length ≤ 1)

omit [Ed25519] [PublicKeyBytes] in
/-- Before a document, the client has not said anything, or it is left alone. -/
theorem Phase.of_turn {docIds rest : List String} {s : Sync} (hs : Phase docIds s)
    (hturn : s.client = .turn rest) :
    (docIds = rest ∧ s.server = .reading ∧ s.toClient = []) ∨
      ∃ docId r, docIds = docId :: rest ∧ s.server = .done r ∧ s.toClient = [] := by
  cases hs with
  | start hclient hserver _ hfrom =>
    cases hclient.symm.trans hturn
    exact .inl ⟨rfl, hserver, hfrom⟩
  | alone docId rest r hids hclient hserver hfrom =>
    cases hclient.symm.trans hturn
    exact .inr ⟨docId, r, hids, hserver, hfrom⟩
  | asked _ _ _ hclient => cases hclient.symm.trans hturn
  | answered _ _ _ _ hclient => cases hclient.symm.trans hturn
  | unheard _ _ _ hclient => cases hclient.symm.trans hturn
  | failed _ hclient => cases hclient.symm.trans hturn
  | finished hclient => cases hclient.symm.trans hturn

omit [Ed25519] [PublicKeyBytes] in
theorem phase_clientTurn {docIds : List String} {s s' : Sync} {delivered : Bool}
    (hs : Phase docIds s) (h : s.clientTurn delivered = some s') : Phase docIds s' := by
  rcases clientTurn_cases h with ⟨hturn, rfl⟩ | ⟨docId, rest, hturn, -, hserver', hfrom',
    ⟨e, he, -⟩ | ⟨sv, step1, -, hwait, -⟩⟩
  · -- no document is left
    rcases hs.of_turn hturn with ⟨rfl, -⟩ | ⟨docId, r, rfl, -⟩
    · exact .finished rfl (Nat.zero_le 1)
    · exact .finished rfl (le_refl 1)
  · exact .failed e he
  · rcases hs.of_turn hturn with ⟨rfl, hserver, hfrom⟩ | ⟨_, r, -, hserver, hfrom⟩
    · exact .asked docId rest rfl hwait (hserver'.trans hserver) (hfrom'.trans hfrom)
    · exact .unheard docId rest r hwait (hserver'.trans hserver) (hfrom'.trans hfrom)

omit [Ed25519] [PublicKeyBytes] in
/-- A read of the client keeps it. -/
theorem phase_clientRead {docIds : List String} {s s' : Sync} (hs : Phase docIds s)
    (h : s.clientRead = some s') : Phase docIds s' := by
  obtain ⟨docId, rest, hwait, -, hserver', -, ⟨e, he⟩ | ⟨reply, m, hread, hslice, hturn⟩⟩ :=
    clientRead_cases h
  · exact .failed e he
  · cases hs with
    | answered docId' rest' r hids hclient hserver hfrom =>
      cases hclient.symm.trans hwait
      rcases hfrom with hnil | ⟨m', reply', hvec, hfrom⟩
      · rw [hnil, readFramed_nil] at hread
        cases hread
      · -- the client reads the one message, or an error
        rw [hfrom, ← List.append_nil (writeFramed reply')] at hread
        obtain ⟨hcut, htail⟩ := readFramed_writeFramed hread
        by_cases heq : reply = reply'
        · exact .alone docId rest r hids hturn (hserver'.trans hserver) (htail heq)
        · obtain ⟨e, he⟩ := MsgPack.fromSlice_cut hvec hcut heq
          cases he.symm.trans hslice
    | asked _ _ _ _ _ hfrom =>
      rw [hfrom, readFramed_nil] at hread
      cases hread
    | unheard _ _ _ _ _ hfrom =>
      rw [hfrom, readFramed_nil] at hread
      cases hread
    | start hclient => cases hclient.symm.trans hwait
    | alone _ _ _ _ hclient => cases hclient.symm.trans hwait
    | failed _ hclient => cases hclient.symm.trans hwait
    | finished hclient => cases hclient.symm.trans hwait

/-- A read of the server keeps it. -/
theorem phase_serverRead {docIds : List String} {s s' : Sync} (hs : Phase docIds s)
    (h : s.serverRead = some s') : Phase docIds s' := by
  obtain ⟨hreading, ⟨r, hdone⟩, hclient', hcases⟩ := serverRead_cases h
  cases hs with
  | start hclient hserver hto hfrom =>
    -- there is nothing to read, and the client has not closed
    rcases hcases with ⟨-, -, hclosed⟩ | ⟨buf, tail, hread, -⟩
    · obtain ⟨r, hr⟩ := hclosed (by rw [hto, readFramed_nil])
      cases hclient.symm.trans hr
    · rw [hto, readFramed_nil] at hread
      cases hread
  | asked docId rest hids hclient hserver hfrom =>
    refine .answered docId rest r hids (hclient'.trans hclient) hdone ?_
    rcases hcases with ⟨-, hfrom', -⟩ | ⟨buf, tail, -, -, hfrom' | ⟨m, reply, hvec, hfrom'⟩⟩
    · exact .inl (hfrom'.trans hfrom)
    · exact .inl (hfrom'.trans hfrom)
    · exact .inr ⟨m, reply, hvec, by rw [hfrom', hfrom, List.nil_append]⟩
  | answered _ _ _ _ _ hserver => cases hserver.symm.trans hreading
  | alone _ _ _ _ _ hserver => cases hserver.symm.trans hreading
  | unheard _ _ _ _ hserver => cases hserver.symm.trans hreading
  | failed e hclient => exact .failed e (hclient'.trans hclient)
  | finished hclient hids => exact .finished (hclient'.trans hclient) hids

/-- `sync_peer` returns `Ok` only if it has at most one document. -/
theorem ok_one_document {a b : DocStore} {docIds : List String} {acts : List SyncAct} {s : Sync}
    (hrun : run step (start a b docIds) acts = some s) (hok : s.client = .done (.ok ())) :
    docIds.length ≤ 1 := by
  have hphase := run_preserves (Phase docIds) (fun s act s' hs hstep => by
    cases act with
    | clientTurn delivered => exact phase_clientTurn hs hstep
    | clientRead => exact phase_clientRead hs hstep
    | serverRead => exact phase_serverRead hs hstep) hrun (.start rfl rfl rfl rfl)
  cases hphase with
  | finished _ hids => exact hids
  | start hclient => cases hclient.symm.trans hok
  | asked _ _ _ hclient => cases hclient.symm.trans hok
  | answered _ _ _ _ hclient => cases hclient.symm.trans hok
  | alone _ _ _ _ hclient => cases hclient.symm.trans hok
  | unheard _ _ _ hclient => cases hclient.symm.trans hok
  | failed _ hclient => cases hclient.symm.trans hok

end Sync

end Sync

/-! ## One document of two nodes -/

/-- A codec for the messages about one document, with the length of the body before it. -/
def shortVec : Msg → Except String Bytes
  | .syncStep1 docId sv =>
    if docId = "doc1" ∧ sv.length < 256 then .ok (1 :: UInt8.ofNat sv.length :: sv)
    else .error "unsupported"
  | .syncStep2 docId update =>
    if docId = "doc1" ∧ update.length < 256 then .ok (2 :: UInt8.ofNat update.length :: update)
    else .error "unsupported"
  | .update _ _ _ _ => .error "unsupported"

/-- The reader of the small format below. A frame is a tag, a length and the bytes. -/
def shortSlice : Bytes → Except String Msg
  | tag :: len :: body =>
    if body.length = len.toNat then
      if tag = 1 then .ok (.syncStep1 "doc1" body)
      else if tag = 2 then .ok (.syncStep2 "doc1" body)
      else .error "wrong msgpack marker"
    else .error "failed to fill whole buffer"
  | _ => .error "failed to fill whole buffer"

theorem shortVec_ok {m : Msg} {b : Bytes} (h : shortVec m = .ok b) :
    ∃ tag body, b = tag :: UInt8.ofNat body.length :: body ∧ body.length < 256 ∧
      (tag = 1 ∧ m = .syncStep1 "doc1" body ∨ tag = 2 ∧ m = .syncStep2 "doc1" body) := by
  cases m with
  | syncStep1 docId sv =>
    rw [shortVec] at h
    split_ifs at h with hm
    cases h
    exact ⟨1, sv, rfl, hm.2, .inl ⟨rfl, by rw [hm.1]⟩⟩
  | syncStep2 docId update =>
    rw [shortVec] at h
    split_ifs at h with hm
    cases h
    exact ⟨2, update, rfl, hm.2, .inr ⟨rfl, by rw [hm.1]⟩⟩
  | update docId update sig vk => cases h

theorem length_byte {body : Bytes} (h : body.length < 256) :
    (UInt8.ofNat body.length).toNat = body.length :=
  UInt8.toNat_ofNat_of_lt' h

/-- A small format for the messages of one document. -/
@[reducible] def MsgPack.short : MsgPack where
  toVec := shortVec
  fromSlice := shortSlice
  fromSlice_toVec := by
    intro m b h
    obtain ⟨tag, body, rfl, hlen, ⟨rfl, rfl⟩ | ⟨rfl, rfl⟩⟩ := shortVec_ok h
    · rw [shortSlice, if_pos (length_byte hlen).symm, if_pos rfl]
    · rw [shortSlice, if_pos (length_byte hlen).symm, if_neg (by decide), if_pos rfl]
  fromSlice_cut := by
    intro m b p h hp hne
    obtain ⟨tag, body, rfl, hlen, -⟩ := shortVec_ok h
    match p, hp, hne with
    | [], _, _ => exact ⟨_, rfl⟩
    | [_], _, _ => exact ⟨_, rfl⟩
    | x :: y :: p, hp, hne =>
      obtain ⟨htag, hp⟩ := List.cons_prefix_cons.mp hp
      obtain ⟨hy, hp⟩ := List.cons_prefix_cons.mp hp
      have hshort : p.length ≠ y.toNat := by
        rw [hy, length_byte hlen]
        exact fun heq => hne (by rw [htag, hy, hp.eq_of_length heq])
      exact ⟨_, by rw [shortSlice, if_neg hshort]⟩

/-- One document, which holds one update. -/
def oneDoc : @DocStore Crdt.bytes :=
  let _ := Crdt.bytes
  (∅ : DocStore).insert "doc1" [7]

/-- The client asks, the server answers, and the client reads the answer and ends. -/
def askAndRead : List SyncAct := [.clientTurn true, .serverRead, .clientRead, .clientTurn true]

/-- What these steps come to, with the document at the client. -/
def asked (b : @DocStore Crdt.bytes) : Option (@Sync Crdt.bytes) :=
  let _ := Crdt.bytes
  let _ := Ed25519.checksum
  let _ := PublicKeyBytes.plain
  let _ := MsgPack.short
  run Sync.step (Sync.start oneDoc b ["doc1"]) askAndRead

theorem known_complete :
    let _ := Crdt.bytes
    let _ := Ed25519.checksum
    let _ := PublicKeyBytes.plain
    let _ := MsgPack.short
    ∃ s, run Sync.step (Sync.start oneDoc oneDoc ["doc1"]) askAndRead = some s ∧
      s.client = .done (.ok ()) ∧
      ∀ docId ∈ ["doc1"], oneDoc.held docId ⊆ s.b.held docId := by
  have hend : (asked oneDoc).map (@Sync.client Crdt.bytes) = some (.done (.ok ())) := rfl
  obtain ⟨s, hrun, hok⟩ := Option.map_eq_some_iff.mp hend
  intro _ _ _ _
  exact ⟨s, hrun, hok, (Sync.sync_complete_iff oneDoc oneDoc ["doc1"] hrun).mpr
    fun _ _ => subset_refl _⟩

/-- The server does not have the document, `sync_peer` returns `Ok`, and the server still does not
hold the update. -/
theorem pending_lost :
    let _ := Crdt.bytes
    let _ := Ed25519.checksum
    let _ := PublicKeyBytes.plain
    let _ := MsgPack.short
    ∃ s, run Sync.step (Sync.start oneDoc ∅ ["doc1"]) askAndRead = some s ∧
      s.client = .done (.ok ()) ∧
      ¬∀ docId ∈ ["doc1"], oneDoc.held docId ⊆ s.b.held docId := by
  intro _ _ _ _
  have hend : (asked ∅).map (fun s => (s.client, s.b.lookup "doc1")) =
      some (.done (.ok ()), some []) := rfl
  obtain ⟨s, hrun, heq⟩ := Option.map_eq_some_iff.mp hend
  obtain ⟨hok, hdoc⟩ := Prod.mk.inj heq
  refine ⟨s, hrun, hok, fun h => ?_⟩
  have hmine : (7 : UInt8) ∈ oneDoc.held "doc1" := List.mem_singleton_self (7 : UInt8)
  have hheld := h "doc1" List.mem_cons_self hmine
  rw [DocStore.held, hdoc] at hheld
  exact List.not_mem_nil hheld

end SynapseMemory.Federation
