import SynapseMemory.Joining
import SynapseMemory.ProvenanceRuns

/-!
# What a signature binds

The message that `sign_and_append` signs is made of six parts, one after the other: the content
hash, the document id, the agent id, the agent's version, the source uri and the parent hash, which
is 32 zeros if there is none. Nothing marks where one part ends.

So the message tells two records apart exactly as far as the order of their bytes does. A record
whose parts are recut (`Joining.Recut`), bytes of one part moved into its neighbour, is another
record under the same message, and `verify_signature` accepts it with the old signature.
-/

namespace SynapseMemory.Provenance

open Joining

/-- The fields that the signature is for. -/
structure Covered where
  docId : String
  agentId : String
  agentVersion : String
  sourceUri : String
  contentHash : Bytes
  parentHash : Option Bytes
  deriving DecidableEq

/-- The fields of a record that its signature covers. -/
def ProvenanceRecord.covered (r : ProvenanceRecord) : Covered :=
  ⟨r.docId, r.agentId, r.agentVersion, r.sourceUri, r.contentHash, r.parentHash⟩

/-- The message that is signed for a record, and that its signature is verified for. -/
def ProvenanceRecord.message (r : ProvenanceRecord) : Bytes :=
  signMessage r.docId r.agentId r.agentVersion r.sourceUri r.contentHash r.parentHash

/-- The parts of the message. -/
def ProvenanceRecord.parts (r : ProvenanceRecord) : List Bytes :=
  [r.contentHash, Bytes.ofString r.docId, Bytes.ofString r.agentId,
    Bytes.ofString r.agentVersion, Bytes.ofString r.sourceUri,
    r.parentHash.getD Digest.zero.bytes]

theorem flatten_parts (r : ProvenanceRecord) : r.parts.flatten = r.message := by
  simp [ProvenanceRecord.parts, ProvenanceRecord.message, signMessage]

/-- Two records have the same message exactly if the parts of one are those of the other, recut. -/
theorem message_eq_iff {r r' : ProvenanceRecord} :
    r.message = r'.message ↔ Recut r.parts r'.parts := by
  have hlen : r.parts.length = r'.parts.length := rfl
  rw [recut_iff hlen, flatten_parts, flatten_parts]

/-- The records have the same fields, or not even the parts of one, recut, are those of the
other. -/
def ToldApart (r r' : ProvenanceRecord) : Prop :=
  r.covered ≠ r'.covered → ¬Recut r.parts r'.parts

section

variable [Ed25519]

/-- A record that keeps a signature of another one is accepted if it has the message. -/
theorem verifySignature_of_message_eq {sk : SigningKey} {r r' : ProvenanceRecord}
    (hsigned : r.signature = (Ed25519.sign sk r.message).val) (hkept : r'.signature = r.signature)
    (h : r'.message = r.message) :
    verifySignature r' (Ed25519.verifyingKey sk) = .ok () := by
  have hlen : r'.signature.length = sigLen := by
    rw [hkept, hsigned]
    exact (Ed25519.sign sk r.message).property
  have hsig : (⟨r'.signature, hlen⟩ : Signature) = Ed25519.sign sk r'.message := by
    rw [h]
    exact Subtype.ext (hkept.trans hsigned)
  rw [verifySignature, dif_pos hlen, hsig]
  exact if_pos (Ed25519.verify_sign sk r'.message)

/-- And it is refused if it has another message, as the signature verifies for no other one. -/
theorem verifySignature_of_message_ne {sk : SigningKey} {r r' : ProvenanceRecord}
    (hsigned : r.signature = (Ed25519.sign sk r.message).val) (hkept : r'.signature = r.signature)
    (hbinds : Ed25519.verify (Ed25519.verifyingKey sk) r'.message (Ed25519.sign sk r.message) =
      true → r'.message = r.message)
    (h : r'.message ≠ r.message) :
    ∃ e, verifySignature r' (Ed25519.verifyingKey sk) = .error e := by
  have hlen : r'.signature.length = sigLen := by
    rw [hkept, hsigned]
    exact (Ed25519.sign sk r.message).property
  have hsig : (⟨r'.signature, hlen⟩ : Signature) = Ed25519.sign sk r.message :=
    Subtype.ext (hkept.trans hsigned)
  refine ⟨.invalidSignature r'.docId, ?_⟩
  rw [verifySignature, dif_pos hlen, hsig]
  exact if_neg fun hverify => h (hbinds hverify)

variable [ContentHash]

theorem signAndAppend_ok {identity : AgentIdentity} {t t' : Records} {c : Call}
    {r : ProvenanceRecord} (h : signAndAppend identity t c = some (.ok (t', r))) :
    newRecord identity t c = some (.ok r) ∧ t' = t.insertRecord r := by
  rw [signAndAppend] at h
  cases hnew : newRecord identity t c with
  | none =>
    rw [hnew] at h
    cases h
  | some result =>
    cases result with
    | error e =>
      rw [hnew] at h
      cases h
    | ok r =>
      rw [hnew] at h
      cases h
      exact ⟨rfl, rfl⟩

/-- Two records that differ in a covered field have different messages, and a stored record that is
altered so, its signature kept, fails `verify_signature` under its key, if and only if the
alteration is not one that moves bytes between neighbouring parts. -/
theorem alteration_detected_iff (r r' : ProvenanceRecord) :
    ((r.covered ≠ r'.covered → r.message ≠ r'.message) ↔ ToldApart r r') ∧
    ∀ identity t c t' sk, signAndAppend identity t c = some (.ok (t', r)) →
      identity.signingKey = .ok sk → r'.signature = r.signature →
      (Ed25519.verify (Ed25519.verifyingKey sk) r'.message (Ed25519.sign sk r.message) = true →
        r'.message = r.message) →
      ((r.covered ≠ r'.covered → ∃ e, verifySignature r' (Ed25519.verifyingKey sk) = .error e) ↔
        ToldApart r r') := by
  refine ⟨imp_congr_right fun _ => not_congr message_eq_iff, ?_⟩
  intro identity t c t' sk happend hkey hkept hbinds
  obtain ⟨-, -, ⟨sk', hkey', hsigned⟩, -⟩ := newRecord_ok (signAndAppend_ok happend).1
  obtain rfl := Except.ok.inj (hkey.symm.trans hkey')
  refine imp_congr_right fun _ => ?_
  rw [← message_eq_iff]
  refine ⟨?_, ?_⟩
  · rintro ⟨e, he⟩ hsame
    rw [verifySignature_of_message_eq hsigned hkept hsame.symm] at he
    cases he
  · exact fun h => verifySignature_of_message_ne hsigned hkept hbinds (Ne.symm h)

end

/-- The identity whose secret is all zeros. -/
def zeroIdentity : AgentIdentity := ⟨"AAAAAAAAAAAAAAAAAAAAAAAAAAAAAAAAAAAAAAAAAAA=", "bot"⟩

/-- A call of an agent for its first document. -/
def oneNote : Call := ⟨"doc1", "2.1", "chat", [1], none, 0⟩

theorem run_oneNote :
    let _ := Ed25519.checksum
    let _ := ContentHash.checksum
    ∃ t r sk, signAndAppend zeroIdentity Records.empty oneNote = some (.ok (t, r)) ∧
      zeroIdentity.signingKey = .ok sk ∧ r.docId = "doc1" ∧ r.agentId = "bot" ∧
      r.agentVersion = "2.1" ∧ r.sourceUri = "chat" ∧ r.parentHash = none ∧
      r.contentHash = (Digest.checksum [1]).bytes :=
  ⟨_, _, _, rfl, rfl, rfl, rfl, rfl, rfl, rfl, rfl⟩

/-- Another version is found out. -/
theorem otherVersion_detected :
    let _ := Ed25519.checksum
    let _ := ContentHash.checksum
    ∃ t r sk, signAndAppend zeroIdentity Records.empty oneNote = some (.ok (t, r)) ∧
      zeroIdentity.signingKey = .ok sk ∧
      ∃ e, verifySignature { r with agentVersion := "2.2" } (Ed25519.verifyingKey sk) =
        .error e := by
  intro _ _
  obtain ⟨t, r, sk, happend, hkey, hdoc, hagent, hversion, huri, hparent, hhash⟩ := run_oneNote
  refine ⟨t, r, sk, happend, hkey, ?_⟩
  have hne : r.message ≠ { r with agentVersion := "2.2" }.message := by
    simp only [ProvenanceRecord.message, hdoc, hagent, hversion, huri, hparent, hhash]
    decide +kernel
  have hcovered : r.covered ≠ { r with agentVersion := "2.2" }.covered := by
    simp [ProvenanceRecord.covered, hversion]
  have hiff := (alteration_detected_iff r { r with agentVersion := "2.2" }).2 _ _ _ _ sk happend
    hkey rfl
  refine (hiff ?_).mpr ?_ hcovered
  · obtain rfl := Except.ok.inj (hkey.symm.trans rfl)
    simp only [ProvenanceRecord.message, hdoc, hagent, hversion, huri, hparent, hhash]
    decide +kernel
  · exact fun _ => (not_congr message_eq_iff).mp hne

/-- A byte that moved from the agent id into the document id is not. -/
theorem movedByte_undetected :
    let _ := Ed25519.checksum
    let _ := ContentHash.checksum
    ∃ t r sk, signAndAppend zeroIdentity Records.empty oneNote = some (.ok (t, r)) ∧
      zeroIdentity.signingKey = .ok sk ∧
      ∃ r' : ProvenanceRecord, r'.signature = r.signature ∧ r'.docId = "doc1b" ∧
        r'.agentId = "ot" ∧ r.covered ≠ r'.covered ∧ r.message = r'.message ∧
        verifySignature r' (Ed25519.verifyingKey sk) = .ok () := by
  intro _ _
  obtain ⟨t, r, sk, happend, hkey, hdoc, hagent, hversion, huri, hparent, hhash⟩ := run_oneNote
  have hsame : r.message = { r with docId := "doc1b", agentId := "ot" }.message := by
    simp only [ProvenanceRecord.message, hdoc, hagent, hversion, huri, hparent, hhash]
    decide +kernel
  obtain ⟨-, -, ⟨sk', hkey', hsigned⟩, -⟩ := newRecord_ok (signAndAppend_ok happend).1
  obtain rfl := Except.ok.inj (hkey.symm.trans hkey')
  refine ⟨t, r, sk, happend, hkey, { r with docId := "doc1b", agentId := "ot" }, rfl, rfl, rfl, ?_,
    hsame, verifySignature_of_message_eq hsigned rfl hsame.symm⟩
  simp [ProvenanceRecord.covered, hdoc]

end SynapseMemory.Provenance
