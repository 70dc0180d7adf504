import SynapseMemory.Crdt
import SynapseMemory.Provenance
import SynapseMemory.Transition

/-!
# Federation

The model of `federate.rs`: the messages, the store of CRDT documents, and what a node does with a
signed update. The CRDT library and the bytes of public keys are parameters.

The signature of an update covers the update and not the document id beside it, and the key comes
with the message. So a message whose update was signed for one document is accepted for another one:
every update that is applied was signed for its document as long as no such message comes to a
document that accepts it (`authentic_iff`).

A document is made before the update for it is read. So a message that is rejected only then leaves
an empty document (`rejected_same_iff`).
-/

namespace SynapseMemory.Federation

open Transition
open Provenance (Ed25519 SigningKey Signature sigLen)

/-- `Msg` -/
inductive Msg where
  | syncStep1 (docId : String) (sv : Bytes)
  | syncStep2 (docId : String) (update : Bytes)
  | update (docId : String) (update sig vk : Bytes)
  deriving DecidableEq

/-- The errors that a node returns. -/
inductive Error where
  | io (message : String)
  | other (message : String)
  deriving DecidableEq

/-! ## The libraries -/

/-- The bytes of public keys, and what the library says of a signature that does not verify. -/
class PublicKeyBytes [Ed25519] where
  fromBytes : Bytes → Except String Ed25519.VerifyingKey
  toBytes : Ed25519.VerifyingKey → Bytes
  length_toBytes : ∀ vk, (toBytes vk).length = 32
  fromBytes_toBytes : ∀ vk, fromBytes (toBytes vk) = .ok vk
  invalid : String

/-! ## The store -/

section Store

variable [Crdt]

/-- The documents of a node, by their ids. -/
abbrev DocStore : Type := AList fun _ : String => Crdt.Doc

namespace DocStore

/-- `get_or_create` -/
def getOrCreate (store : DocStore) (docId : String) : DocStore × Crdt.Doc :=
  match store.lookup docId with
  | some doc => (store, doc)
  | none => (store.insert docId Crdt.new, Crdt.new)

/-- `state_vector` -/
def stateVector (store : DocStore) (docId : String) : DocStore × Bytes :=
  let (store, doc) := store.getOrCreate docId
  (store, Crdt.stateVector doc)

/-- The document is there afterwards, also if the update is refused. -/
def applyUpdate (store : DocStore) (docId : String) (update : Bytes) :
    DocStore × Except Error Bytes :=
  let (store, doc) := store.getOrCreate docId
  match Crdt.decodeUpdate update with
  | .error e => (store, .error (.other e))
  | .ok u =>
    match Crdt.applyUpdate doc u with
    | (doc, .error e) => (store.insert docId doc, .error (.other e))
    | (doc, .ok ()) =>
      (store.insert docId doc, .ok (Crdt.encodeStateAsUpdate doc Crdt.noVector))

/-- `diff_since`. The document is made before the state vector is decoded. -/
def diffSince (store : DocStore) (docId : String) (sv : Bytes) : DocStore × Except Error Bytes :=
  let (store, doc) := store.getOrCreate docId
  match Crdt.decodeStateVector sv with
  | .error e => (store, .error (.other e))
  | .ok sv => (store, .ok (Crdt.encodeStateAsUpdate doc sv))

/-- What the store holds of a document. -/
def held (store : DocStore) (docId : String) : Set Crdt.Op :=
  ((store.lookup docId).map Crdt.held).getD ∅

theorem held_getOrCreate (store : DocStore) (docId : String) :
    (store.getOrCreate docId).1.held = store.held := by
  rw [getOrCreate]
  cases h : store.lookup docId with
  | some doc => rfl
  | none =>
    funext id
    by_cases hid : id = docId
    · subst hid
      simp [held, h, Crdt.held_new]
    · simp [held, AList.lookup_insert_ne hid]

/-- A diff takes nothing from a store and gives nothing to it. -/
theorem held_diffSince (store : DocStore) (docId : String) (sv : Bytes) :
    (store.diffSince docId sv).1.held = store.held := by
  rw [← held_getOrCreate store docId, diffSince]
  cases Crdt.decodeStateVector sv <;> rfl

end DocStore

/-- The document accepts the update. -/
def DocStore.Accepts (store : DocStore) (docId : String) (update : Bytes) : Prop :=
  ∃ u, Crdt.decodeUpdate update = .ok u ∧
    (Crdt.applyUpdate (store.getOrCreate docId).2 u).2 = .ok ()

theorem applyUpdate_ok_iff {store : DocStore} {docId : String} {update : Bytes} :
    (∃ full, (store.applyUpdate docId update).2 = .ok full) ↔ store.Accepts docId update := by
  rw [DocStore.applyUpdate, DocStore.Accepts]
  cases hdecode : Crdt.decodeUpdate update with
  | error e => simp
  | ok u =>
    simp only [Except.ok.injEq, exists_eq_left']
    rcases happly : Crdt.applyUpdate (store.getOrCreate docId).2 u with ⟨doc, e | _⟩
    · simp
    · simp

end Store

/-! ## Signed updates -/

section Updates

variable [Ed25519] [PublicKeyBytes]

/-- `verify_bytes`, and what comes before it to read the key and the signature. -/
def checkSigned (update sig vk : Bytes) : Except Error Unit :=
  if vk.length ≠ 32 then .error (.other "vk must be 32 bytes")
  else if hsig : sig.length = sigLen then
    match PublicKeyBytes.fromBytes vk with
    | .error e => .error (.other e)
    | .ok key =>
      if Ed25519.verify key update ⟨sig, hsig⟩ then .ok ()
      else .error (.other ("signature invalid: " ++ PublicKeyBytes.invalid))
  else .error (.other "sig must be 64 bytes")

/-- The message that `on_local_update` sends to the peers. -/
def onLocalUpdate (sk : SigningKey) (docId : String) (update : Bytes) : Msg :=
  .update docId update (Ed25519.sign sk update).val
    (PublicKeyBytes.toBytes (Ed25519.verifyingKey sk))

/-- What a node sends of its own passes the check of every other. -/
theorem checkSigned_onLocalUpdate (sk : SigningKey) (update : Bytes) :
    checkSigned update (Ed25519.sign sk update).val
      (PublicKeyBytes.toBytes (Ed25519.verifyingKey sk)) = .ok () := by
  rw [checkSigned, if_neg (not_not.mpr (PublicKeyBytes.length_toBytes _)),
    dif_pos (Ed25519.sign sk update).property, PublicKeyBytes.fromBytes_toBytes]
  simp only [Subtype.coe_eta, Ed25519.verify_sign, if_true]

/-- The key that a message comes with, if it passes the check. -/
theorem checkSigned_ok {update sig vk : Bytes} (h : checkSigned update sig vk = .ok ()) :
    ∃ key hsig, PublicKeyBytes.fromBytes vk = .ok key ∧
      Ed25519.verify key update ⟨sig, hsig⟩ = true := by
  rw [checkSigned] at h
  split_ifs at h with hvk hsig
  cases hkey : PublicKeyBytes.fromBytes vk with
  | error e =>
    rw [hkey] at h
    cases h
  | ok key =>
    rw [hkey] at h
    refine ⟨key, hsig, rfl, ?_⟩
    by_contra hverify
    simp only [if_neg hverify] at h
    cases h

variable [Crdt]

/-- Check, and apply: the same in `receive_update` and in `handle_stream`. -/
def applySigned (store : DocStore) (docId : String) (update sig vk : Bytes) :
    DocStore × Except Error Unit :=
  match checkSigned update sig vk with
  | .error e => (store, .error e)
  | .ok () =>
    match store.applyUpdate docId update with
    | (store, .error e) => (store, .error e)
    | (store, .ok _) => (store, .ok ())

/-- `receive_update` -/
def receiveUpdate (store : DocStore) : Msg → DocStore × Except Error Unit
  | .update docId update sig vk => applySigned store docId update sig vk
  | .syncStep1 _ _ => (store, .error (.other "unexpected message type in receive_update"))
  | .syncStep2 _ _ => (store, .error (.other "unexpected message type in receive_update"))

theorem applySigned_ok_iff {store : DocStore} {docId : String} {update sig vk : Bytes} :
    (applySigned store docId update sig vk).2 = .ok () ↔
      checkSigned update sig vk = .ok () ∧ store.Accepts docId update := by
  rw [applySigned, ← applyUpdate_ok_iff]
  cases hcheck : checkSigned update sig vk with
  | error e => simp
  | ok u =>
    rcases happly : store.applyUpdate docId update with ⟨store', e | full⟩
    · simp
    · simp

/-! ## Updates that are refused -/

omit [Ed25519] [PublicKeyBytes] in
/-- The same documents with the same contents. -/
def DocStore.Same (store store' : DocStore) : Prop :=
  ∀ docId, store'.lookup docId = store.lookup docId

omit [Ed25519] [PublicKeyBytes] in
/-- The document is there, and an update that it refuses leaves it as it was. -/
def DocStore.Unmarked (store : DocStore) (docId : String) (update : Bytes) : Prop :=
  ∃ doc, store.lookup docId = some doc ∧
    ∀ u, Crdt.decodeUpdate update = .ok u → (Crdt.applyUpdate doc u).1 = doc

omit [Ed25519] [PublicKeyBytes] in
theorem same_insert_iff {store : DocStore} {docId : String} {doc : Crdt.Doc} :
    store.Same (store.insert docId doc) ↔ store.lookup docId = some doc := by
  constructor
  · intro h
    rw [← h docId, AList.lookup_insert]
  · intro h id
    by_cases hid : id = docId
    · subst hid
      rw [AList.lookup_insert, h]
    · rw [AList.lookup_insert_ne hid]

omit [Ed25519] [PublicKeyBytes] in
/-- The document is made before the update is read. -/
theorem applyUpdate_same_iff {store : DocStore} {docId : String} {update : Bytes} {e : Error}
    (h : (store.applyUpdate docId update).2 = .error e) :
    store.Same (store.applyUpdate docId update).1 ↔ store.Unmarked docId update := by
  rw [DocStore.applyUpdate, DocStore.getOrCreate] at h ⊢
  rw [DocStore.Unmarked]
  cases hlookup : store.lookup docId with
  | none =>
    -- a document that was not there is there now
    have hnew : ∀ store' : DocStore, docId ∈ store' → ¬store.Same store' := by
      intro store' hmem hsame
      obtain ⟨doc, hdoc⟩ := Option.isSome_iff_exists.mp (AList.lookup_isSome.mpr hmem)
      rw [hsame docId, hlookup] at hdoc
      cases hdoc
    refine iff_of_false (hnew _ ?_) (by simp)
    cases Crdt.decodeUpdate update with
    | error e' => simp
    | ok u =>
      rcases happly : Crdt.applyUpdate Crdt.new u with ⟨doc', e' | _⟩ <;> simp [happly]
  | some doc =>
    simp only [hlookup, Option.some.injEq, exists_eq_left'] at h ⊢
    cases hdecode : Crdt.decodeUpdate update with
    | error e' => exact iff_of_true (fun _ => rfl) (fun u hu => nomatch hu)
    | ok u =>
      rw [hdecode] at h
      rcases happly : Crdt.applyUpdate doc u with ⟨doc', e' | _⟩
      · simp only [happly, same_insert_iff, hlookup, Option.some.injEq, Except.ok.injEq,
          forall_eq']
        exact eq_comm
      · simp [happly] at h

/-- The check of the message fails, or it has another kind, or the document takes no mark. -/
def Traceless (store : DocStore) : Msg → Prop
  | .update docId update sig vk =>
    checkSigned update sig vk = .ok () → store.Unmarked docId update
  | _ => True

/-- **When a rejected message leaves no trace.** -/
theorem rejected_same_iff {store : DocStore} {msg : Msg} {e : Error}
    (h : (receiveUpdate store msg).2 = .error e) :
    store.Same (receiveUpdate store msg).1 ↔ Traceless store msg := by
  cases msg with
  | syncStep1 docId sv => exact iff_of_true (fun _ => rfl) trivial
  | syncStep2 docId update => exact iff_of_true (fun _ => rfl) trivial
  | update docId update sig vk =>
    rw [receiveUpdate, applySigned] at h ⊢
    rw [Traceless]
    cases hcheck : checkSigned update sig vk with
    | error e' => exact iff_of_true (fun _ => rfl) (fun hok => nomatch hok)
    | ok u =>
      rw [hcheck] at h
      rcases happly : store.applyUpdate docId update with ⟨store', e' | full⟩
      · have hsame := applyUpdate_same_iff (congrArg Prod.snd happly)
        rw [happly] at hsame
        simpa [happly] using hsame
      · simp [happly] at h

/-! ## Runs with an adversary -/

/-- A node, every call of `on_local_update` by the holder of any key, and the updates that the node
has applied. -/
structure Node where
  store : DocStore
  signed : List (Ed25519.VerifyingKey × String × Bytes)
  applied : List (String × Bytes)

/-- A holder of a key signs an update for a document, or a message of any origin arrives. -/
inductive Act where
  | localUpdate (sk : SigningKey) (docId : String) (update : Bytes)
  | receive (msg : Msg)

/-- The document and the update of a message. -/
def Msg.target : Msg → List (String × Bytes)
  | .update docId u _ _ => [(docId, u)]
  | _ => []

namespace Node

/-- A node that has signed and applied nothing. -/
def start (store : DocStore) : Node := ⟨store, [], []⟩

/-- One step of a node, with what it signed and what it applied. -/
def step (n : Node) : Act → Node
  | .localUpdate sk docId update =>
    { n with signed := (Ed25519.verifyingKey sk, docId, update) :: n.signed }
  | .receive msg =>
    match receiveUpdate n.store msg with
    | (store, .error _) => { n with store }
    | (store, .ok ()) => { n with store, applied := msg.target ++ n.applied }

/-- What was applied to a document was signed for it. -/
def Authentic (n : Node) : Prop := ∀ p ∈ n.applied, ∃ key, (key, p) ∈ n.signed

/-- Signatures are unforgeable: one that verifies is of an update that the holder of the key has
signed. -/
def Unforged (n : Node) : Act → Prop
  | .receive (.update _ update sig vk) => ∀ key hsig, PublicKeyBytes.fromBytes vk = .ok key →
      Ed25519.verify key update ⟨sig, hsig⟩ = true → ∃ docId, (key, docId, update) ∈ n.signed
  | _ => True

/-- What the holder of a key has signed for one document is not forged for another one. -/
theorem unforged_signed {n : Node} {sk : SigningKey} {docId : String} {update : Bytes}
    (h : (Ed25519.verifyingKey sk, docId, update) ∈ n.signed) (target : String) :
    n.Unforged (.receive (onLocalUpdate sk target update)) := by
  intro key hsig hkey _
  rw [PublicKeyBytes.fromBytes_toBytes] at hkey
  cases hkey
  exact ⟨docId, h⟩

/-- The update was signed, but not for this document. -/
def Readdressed (n : Node) (docId : String) (update : Bytes) : Prop :=
  (∃ p ∈ n.signed, p.2.2 = update) ∧ ∀ p ∈ n.signed, p.2 ≠ (docId, update)

/-- No update that was signed for other documents passes the check here and is accepted. -/
def Kept (n : Node) : Act → Prop
  | .receive (.update docId update sig vk) => n.Readdressed docId update →
      checkSigned update sig vk = .ok () → ¬n.store.Accepts docId update
  | _ => True

/-- A message is applied, or it changes nothing but the store. -/
theorem step_receive (n : Node) (msg : Msg) :
    (∃ docId update sig vk, msg = .update docId update sig vk ∧
        checkSigned update sig vk = .ok () ∧ n.store.Accepts docId update ∧
        (n.step (.receive msg)).signed = n.signed ∧
        (n.step (.receive msg)).applied = (docId, update) :: n.applied) ∨
      n.Kept (.receive msg) ∧ (n.step (.receive msg)).signed = n.signed ∧
        (n.step (.receive msg)).applied = n.applied := by
  cases msg with
  | syncStep1 docId sv => exact .inr ⟨trivial, rfl, rfl⟩
  | syncStep2 docId update => exact .inr ⟨trivial, rfl, rfl⟩
  | update docId update sig vk =>
    have happly : (applySigned n.store docId update sig vk).2 = .ok () ↔ _ := applySigned_ok_iff
    rw [step, receiveUpdate]
    rcases h : applySigned n.store docId update sig vk with ⟨store, e | u⟩ <;> rw [h] at happly
    · refine .inr ⟨fun _ hcheck haccepts => ?_, rfl, rfl⟩
      cases happly.mpr ⟨hcheck, haccepts⟩
    · obtain ⟨hcheck, haccepts⟩ := happly.mp rfl
      exact .inl ⟨docId, update, sig, vk, rfl, hcheck, haccepts, rfl, rfl⟩

/-- One act keeps what was applied authentic exactly if it applies no update to another document
than it was signed for. -/
theorem authentic_step {n : Node} (hn : n.Authentic) {a : Act} (hunforged : n.Unforged a) :
    (n.step a).Authentic ↔ n.Kept a := by
  cases a with
  | localUpdate sk docId update =>
    refine iff_of_true (fun p hp => ?_) trivial
    obtain ⟨key, hkey⟩ := hn p hp
    exact ⟨key, List.mem_cons_of_mem _ hkey⟩
  | receive msg =>
    rcases step_receive n msg with
      ⟨docId, update, sig, vk, rfl, hcheck, haccepts, hsigned, happlied⟩ |
      ⟨hkept, hsigned, happlied⟩
    · rw [Authentic, hsigned, happlied, List.forall_mem_cons, ← Authentic, and_iff_left hn]
      obtain ⟨key, hsig, hkey, hverify⟩ := checkSigned_ok hcheck
      obtain ⟨docId', hmem⟩ := hunforged key hsig hkey hverify
      refine ⟨fun ⟨key', hmem'⟩ hother => ?_, fun hkept => ?_⟩
      · exact absurd rfl (hother.2 _ hmem')
      · by_contra hnone
        refine hkept ⟨⟨_, hmem, rfl⟩, fun p hp heq => hnone ⟨p.1, ?_⟩⟩ hcheck haccepts
        rwa [← heq]
    · rw [Authentic, hsigned, happlied]
      exact iff_of_true hn hkept

/-- **When what is applied is authentic.** Along any run with unforgeable signatures. -/
theorem authentic_iff (store : DocStore) (acts : List Act)
    (hunforged : Meets (fun n a => some (step n a)) Unforged (start store) acts) :
    Along (fun n a => some (step n a)) Authentic (start store) acts ↔
      Meets (fun n a => some (step n a)) Kept (start store) acts := by
  refine along_iff_meets (fun _ => True) Authentic (fun _ _ _ _ _ => trivial)
    (fun n a n' _ hn hunforged hstep => ?_) (run_total step (start store) acts) hunforged trivial
    fun _ hp => (List.not_mem_nil hp).elim
  obtain rfl := Option.some.inj hstep
  exact authentic_step hn hunforged

end Node

end Updates

/-! ## Stand-ins for the libraries -/

/-- The verifying keys are the lists of 32 bytes. -/
@[reducible] def PublicKeyBytes.plain : @PublicKeyBytes Ed25519.checksum :=
  let _ := Ed25519.checksum
  { fromBytes := fun b => if h : b.length = 32 then .ok ⟨b, h⟩ else .error "signature error"
    toBytes := fun vk => vk.val
    length_toBytes := fun vk => vk.property
    fromBytes_toBytes := fun vk => dif_pos vk.property
    invalid := "signature error" }

/-- No bytes are no update. -/
@[reducible] def Crdt.nonempty : Crdt :=
  { Crdt.bytes with
    decodeUpdate := fun update =>
      if update.isEmpty then .error "an unexpected end of buffer was reached" else .ok update }

/-- The key of 32 zeros. -/
def zeroKey : SigningKey := ⟨Digest.zero.bytes, Digest.zero.length_eq⟩

/-- An update of one document. -/
def note : Bytes := [7]

/-- A message that is not signed. -/
theorem unsigned_same :
    let _ := Ed25519.checksum
    let _ := PublicKeyBytes.plain
    let _ := Crdt.nonempty
    DocStore.Same ∅ (receiveUpdate ∅ (.update "doc1" note [] zeroKey.val)).1 := by
  intro _ _ _
  have hrejected : (receiveUpdate ∅ (.update "doc1" note [] zeroKey.val)).2 =
      .error (.other "sig must be 64 bytes") := by
    decide +kernel
  refine (rejected_same_iff hrejected).mpr fun hok => ?_
  have hcheck : checkSigned note [] zeroKey.val = .error (.other "sig must be 64 bytes") := by
    decide +kernel
  cases hcheck.symm.trans hok

/-- A signed message for a document that is not there, with an update of no bytes. -/
theorem empty_update_leaves_document :
    let _ := Ed25519.checksum
    let _ := PublicKeyBytes.plain
    let _ := Crdt.nonempty
    ¬∀ store msg e, (receiveUpdate store msg).2 = .error e →
      DocStore.Same store (receiveUpdate store msg).1 := by
  intro _ _ _ h
  have hrejected : (receiveUpdate ∅ (onLocalUpdate zeroKey "doc1" [])).2 =
      .error (.other "an unexpected end of buffer was reached") := by
    decide +kernel
  have hthere : "doc1" ∈ (receiveUpdate ∅ (onLocalUpdate zeroKey "doc1" [])).1 := by decide +kernel
  rw [← AList.lookup_isSome, h _ _ _ hrejected "doc1"] at hthere
  cases hthere

/-- Signed for a document, and received as it was sent. -/
theorem asSent_authentic :
    let _ := Ed25519.checksum
    let _ := PublicKeyBytes.plain
    let _ := Crdt.bytes
    Along (fun n a => some (Node.step n a)) Node.Authentic (Node.start ∅)
      [.localUpdate zeroKey "doc1" note, .receive (onLocalUpdate zeroKey "doc1" note)] := by
  intro _ _ _
  refine (Node.authentic_iff ∅ _ ?_).mpr ?_
  · refine meets_total_cons.mpr ⟨trivial, meets_total_cons.mpr ⟨?_, trivial⟩⟩
    exact Node.unforged_signed List.mem_cons_self "doc1"
  · refine meets_total_cons.mpr ⟨trivial, meets_total_cons.mpr ⟨fun hother => ?_, trivial⟩⟩
    exact absurd rfl (hother.2 _ List.mem_cons_self)

/-- Signed for one document, and received for another. -/
def toOther [Ed25519] [PublicKeyBytes] : List Act :=
  [.localUpdate zeroKey "doc1" note, .receive (.update "doc2" note (Ed25519.sign zeroKey note).val
    (PublicKeyBytes.toBytes (Ed25519.verifyingKey zeroKey)))]

theorem toOther_applied :
    let _ := Ed25519.checksum
    let _ := PublicKeyBytes.plain
    let _ := Crdt.bytes
    Meets (fun n a => some (Node.step n a)) Node.Unforged (Node.start ∅) toOther ∧
      ¬Along (fun n a => some (Node.step n a)) Node.Authentic (Node.start ∅) toOther := by
  intro _ _ _
  refine ⟨?_, fun h => ?_⟩
  · refine meets_total_cons.mpr ⟨trivial, meets_total_cons.mpr ⟨?_, trivial⟩⟩
    exact Node.unforged_signed List.mem_cons_self "doc2"
  · have happlied : (toOther.foldl Node.step (Node.start ∅)).applied = [("doc2", note)] := by
      decide +kernel
    obtain ⟨key, hkey⟩ := h _ (List.prefix_refl _) _ (run_total Node.step _ _) ("doc2", note)
      (happlied ▸ List.mem_cons_self)
    -- the only signature is for the first document
    have hsigned : (toOther.foldl Node.step (Node.start ∅)).signed.map (·.2.1) = ["doc1"] := by
      decide +kernel
    have hdoc : "doc2" ∈ ["doc1"] := hsigned ▸ List.mem_map_of_mem hkey
    exact absurd hdoc (by decide)

end SynapseMemory.Federation
