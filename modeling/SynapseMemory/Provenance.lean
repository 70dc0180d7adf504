import SynapseMemory.Bytes
import SynapseMemory.PointerWalk
import SynapseMemory.Table

/-!
# Provenance records and their verification

The model of `synapse-provenance`. A record is signed, and it names its parent by the parent's chain
hash, which is taken of the parent's document id, signature and own parent hash. There are two ways
to verify the table. `verifyChain` starts at one document and follows the parent hashes;
`verifyAll` goes over the rows one by one.

A record is **rooted** when it is signed and its parents lead to a record without one, all of them
signed. `verifyChain` succeeds exactly for rooted records. `verifyAll` looks at no parent hash, so
what it says is that the records are signed; they are then all rooted exactly if every parent hash
is found and no record is its own ancestor.
-/

namespace SynapseMemory.Provenance

open Relation PointerWalk

/-- `SIG_LEN` -/
def sigLen : ℕ := 64

/-- `HASH_LEN` -/
def hashLen : ℕ := 32

/-- The 32 bytes of a signing key. -/
abbrev SigningKey : Type := { b : Bytes // b.length = 32 }

/-- The bytes of a signature. -/
abbrev Signature : Type := { b : Bytes // b.length = sigLen }

/-- The signature scheme, and the text encoding of keys. -/
class Ed25519 where
  VerifyingKey : Type
  decodeBase64 : String → Except String Bytes
  verifyingKey : SigningKey → VerifyingKey
  sign : SigningKey → Bytes → Signature
  verify : VerifyingKey → Bytes → Signature → Bool
  verify_sign : ∀ sk m, verify (verifyingKey sk) m (sign sk m) = true

/-- A scheme that signs with a checksum of the key and the message, with one secret. -/
@[reducible] def Ed25519.checksum : Ed25519 where
  VerifyingKey := SigningKey
  decodeBase64 s :=
    if s = "AAAAAAAAAAAAAAAAAAAAAAAAAAAAAAAAAAAAAAAAAAA=" then .ok (List.replicate 32 0)
    else .error "Invalid padding"
  verifyingKey sk := sk
  sign sk m := ⟨(Digest.checksum (sk.val ++ m)).bytes ++ Digest.zero.bytes, by
    rw [List.length_append, Digest.length_eq, Digest.length_eq]
    rfl⟩
  verify pk m s := s.val = (Digest.checksum (pk.val ++ m)).bytes ++ Digest.zero.bytes
  verify_sign _ _ := decide_eq_true rfl

/-- `ProvenanceError` -/
inductive ProvenanceError where
  | ed25519 (message : String)
  | notFound (message : String)
  | brokenChain (doc reason : String)
  | invalidSignature (doc : String)
  | base64 (message : String)
  deriving DecidableEq

/-- `Display` -/
def ProvenanceError.message : ProvenanceError → String
  | .ed25519 m => "ed25519: " ++ m
  | .notFound m => "doc not found: " ++ m
  | .brokenChain doc reason => "chain broken at doc " ++ doc ++ ": " ++ reason
  | .invalidSignature doc => "invalid signature on doc " ++ doc
  | .base64 m => "base64: " ++ m

/-- `ProvenanceRecord` -/
structure ProvenanceRecord where
  docId : String
  agentId : String
  agentVersion : String
  sourceUri : String
  signature : Bytes
  parentHash : Option Bytes
  contentHash : Bytes
  ts : ℤ
  deriving DecidableEq

/-- The table, in the order of its rows. -/
structure Records where
  rows : List ProvenanceRecord
  nodup : (rows.map ProvenanceRecord.docId).Nodup

namespace Records

/-- The table without records. -/
def empty : Records := ⟨[], List.nodup_nil⟩

/-- `get_record` -/
def getRecord (t : Records) (docId : String) : Option ProvenanceRecord :=
  t.rows.find? fun r => r.docId = docId

theorem eq_of_docId (t : Records) {a b : ProvenanceRecord} (ha : a ∈ t.rows) (hb : b ∈ t.rows)
    (heq : a.docId = b.docId) : a = b :=
  List.inj_on_of_nodup_map t.nodup ha hb heq

theorem getRecord_eq_some {t : Records} {docId : String} {r : ProvenanceRecord} :
    t.getRecord docId = some r ↔ r ∈ t.rows ∧ r.docId = docId := by
  rw [getRecord, Table.find?_eq_some_of_unique]
  · simp
  · intro a ha b hb hida hidb
    exact t.eq_of_docId ha hb ((of_decide_eq_true hida).trans (of_decide_eq_true hidb).symm)

theorem getRecord_mem {t : Records} {r : ProvenanceRecord} (hr : r ∈ t.rows) :
    t.getRecord r.docId = some r :=
  getRecord_eq_some.mpr ⟨hr, rfl⟩

theorem getRecord_eq_none {t : Records} {docId : String} :
    t.getRecord docId = none ↔ ∀ r ∈ t.rows, r.docId ≠ docId := by
  rw [getRecord, List.find?_eq_none]
  simp

end Records

/-! ## Hashes and signatures -/

/-- What `chain_hash` hashes. -/
def chainInput (r : ProvenanceRecord) : Bytes :=
  Bytes.ofString r.docId ++ (r.signature ++ r.parentHash.getD Digest.zero.bytes)

/-- `chain_hash` -/
def chainHash [ContentHash] (r : ProvenanceRecord) : Digest := ContentHash.blake3 (chainInput r)

section ByHash

variable [ContentHash]

/-- The rows by their chain hashes; a later row overwrites an earlier one. -/
def recordsByChainHash (rows : List ProvenanceRecord) : Bytes → Option ProvenanceRecord :=
  rows.foldl (fun byHash r => Function.update byHash (chainHash r).bytes (some r)) fun _ => none

theorem recordsByChainHash_concat (rows : List ProvenanceRecord) (r : ProvenanceRecord) :
    recordsByChainHash (rows ++ [r]) =
      Function.update (recordsByChainHash rows) (chainHash r).bytes (some r) := by
  rw [recordsByChainHash, List.foldl_append]
  rfl

/-- What is found under a hash has that hash. -/
theorem mem_of_recordsByChainHash {rows : List ProvenanceRecord} {h : Bytes}
    {p : ProvenanceRecord} (hp : recordsByChainHash rows h = some p) :
    p ∈ rows ∧ (chainHash p).bytes = h := by
  induction rows using List.reverseRecOn with
  | nil => cases hp
  | append_singleton rows r ih =>
    rw [recordsByChainHash_concat] at hp
    by_cases hhash : h = (chainHash r).bytes
    · rw [hhash, Function.update_self] at hp
      obtain rfl := Option.some.inj hp
      exact ⟨List.mem_append_right _ List.mem_cons_self, hhash.symm⟩
    · rw [Function.update_of_ne hhash] at hp
      exact ⟨List.mem_append_left _ (ih hp).1, (ih hp).2⟩

/-- The hash of a record is found. -/
theorem recordsByChainHash_isSome {rows : List ProvenanceRecord} {p : ProvenanceRecord}
    (hp : p ∈ rows) : ∃ q, recordsByChainHash rows (chainHash p).bytes = some q := by
  induction rows using List.reverseRecOn with
  | nil => cases hp
  | append_singleton rows r ih =>
    rw [recordsByChainHash_concat]
    by_cases hhash : (chainHash p).bytes = (chainHash r).bytes
    · exact ⟨r, by rw [hhash, Function.update_self]⟩
    · rw [Function.update_of_ne hhash]
      rcases List.mem_append.mp hp with hp | hp
      · exact ih hp
      · obtain rfl := List.mem_singleton.mp hp
        exact absurd rfl hhash

/-- The record that the parent hash leads to. -/
def Records.parentOf (t : Records) (r : ProvenanceRecord) : Option ProvenanceRecord :=
  r.parentHash.bind (recordsByChainHash t.rows)

/-- The parent of a record has the hash that it names. -/
theorem Records.parentOf_eq_some {t : Records} {r p : ProvenanceRecord}
    (h : t.parentOf r = some p) : p ∈ t.rows ∧ r.parentHash = some (chainHash p).bytes := by
  obtain ⟨hash, hhash, hp⟩ := Option.bind_eq_some_iff.mp h
  obtain ⟨hmem, rfl⟩ := mem_of_recordsByChainHash hp
  exact ⟨hmem, hhash⟩

/-- Every parent hash is the chain hash of a stored record. -/
def Records.Resolved (t : Records) : Prop :=
  ∀ r ∈ t.rows, ∀ h ∈ r.parentHash, ∃ p ∈ t.rows, (chainHash p).bytes = h

/-- Where all hashes are resolved, a record with a parent hash has a parent. -/
theorem Records.Resolved.parentOf {t : Records} (h : t.Resolved) {r : ProvenanceRecord}
    (hr : r ∈ t.rows) {hash : Bytes} (hhash : r.parentHash = some hash) :
    ∃ p, t.parentOf r = some p := by
  obtain ⟨p, hp, rfl⟩ := h r hr hash hhash
  obtain ⟨q, hq⟩ := recordsByChainHash_isSome hp
  exact ⟨q, by rw [Records.parentOf, hhash, Option.bind_some, hq]⟩

end ByHash

/-- `sign_message` -/
def signMessage (docId agentId agentVersion sourceUri : String) (contentHash : Bytes)
    (parentHash : Option Bytes) : Bytes :=
  contentHash ++ Bytes.ofString docId ++ Bytes.ofString agentId ++ Bytes.ofString agentVersion ++
    Bytes.ofString sourceUri ++ parentHash.getD Digest.zero.bytes

section Signatures

variable [Ed25519]

/-- `verify_signature` -/
def verifySignature (r : ProvenanceRecord) (publicKey : Ed25519.VerifyingKey) :
    Except ProvenanceError Unit :=
  let msg := signMessage r.docId r.agentId r.agentVersion r.sourceUri r.contentHash r.parentHash
  if h : r.signature.length = sigLen then
    if Ed25519.verify publicKey msg ⟨r.signature, h⟩ then .ok ()
    else .error (.invalidSignature r.docId)
  else .error (.ed25519 "bad signature len")

/-- The public keys, by agent. -/
abbrev PublicKeys : Type := String → Option Ed25519.VerifyingKey

/-- The signature verifies under the key of the record's agent. -/
def Signed (keys : PublicKeys) (r : ProvenanceRecord) : Prop :=
  ∃ pk, keys r.agentId = some pk ∧ verifySignature r pk = .ok ()

/-! ## Row by row -/

/-- `verify_all`: the complaints, in the order of the timestamps. -/
def verifyAll (t : Records) (keys : PublicKeys) : List String :=
  (t.rows.mergeSort fun a b => a.ts ≤ b.ts).filterMap fun r =>
    match keys r.agentId with
    | some pk =>
      match verifySignature r pk with
      | .ok () => none
      | .error e => some (r.docId ++ ": " ++ e.message)
    | none => some (r.docId ++ ": no public key for agent " ++ r.agentId)

/-- `verify_all` says that the records are signed. -/
theorem verifyAll_eq_nil {t : Records} {keys : PublicKeys} :
    verifyAll t keys = [] ↔ ∀ r ∈ t.rows, Signed keys r := by
  rw [verifyAll, List.filterMap_eq_nil_iff]
  refine (forall_congr' fun r => ?_).trans
    (forall₂_congr fun r _ => Iff.rfl : (∀ r, r ∈ t.rows → Signed keys r) ↔ _)
  rw [List.mem_mergeSort]
  refine imp_congr_right fun _ => ?_
  rw [Signed]
  cases keys r.agentId with
  | none => simp
  | some pk =>
    cases h : verifySignature r pk with
    | error e => simp [h]
    | ok u => simp [h]

/-- What was signed with the key of its agent is signed. -/
theorem signed_of_sign {keys : PublicKeys} {r : ProvenanceRecord} {sk : SigningKey}
    (hkey : keys r.agentId = some (Ed25519.verifyingKey sk))
    (hsign : r.signature = (Ed25519.sign sk (signMessage r.docId r.agentId r.agentVersion
      r.sourceUri r.contentHash r.parentHash)).val) : Signed keys r := by
  have hlen : r.signature.length = sigLen := by
    rw [hsign]
    exact (Ed25519.sign sk _).property
  have hsig : (⟨r.signature, hlen⟩ : Signature) = Ed25519.sign sk (signMessage r.docId r.agentId
    r.agentVersion r.sourceUri r.contentHash r.parentHash) := Subtype.ext hsign
  refine ⟨_, hkey, ?_⟩
  rw [verifySignature, dif_pos hlen, hsig, Ed25519.verify_sign, if_pos rfl]

section Chains

variable [ContentHash]

/-! ## From one document -/

/-- One round of the loop of `verify_chain`: the document to go on with. -/
def visit (t : Records) (keys : PublicKeys) (docId : String) :
    Except ProvenanceError (Option String) :=
  match t.getRecord docId with
  | none => .error (.notFound docId)
  | some r =>
    match keys r.agentId with
    | none => .error (.brokenChain docId ("no public key for agent " ++ r.agentId))
    | some pk =>
      match verifySignature r pk with
      | .error e => .error e
      | .ok () =>
        match r.parentHash with
        | none => .ok none
        | some h =>
          match recordsByChainHash t.rows h with
          | none => .error (.brokenChain docId "parent_hash references missing record")
          | some p => .ok (some p.docId)

/-- `verify_chain`. The loop has fuel for each document once, which is enough
(`verifyChain_ends`). -/
def verifyChain (t : Records) (keys : PublicKeys) (rootDocId : String) :
    Option (Except ProvenanceError Unit) :=
  walk (visit t keys) (fun docId => .brokenChain docId "cycle detected") (t.rows.length + 1) []
    rootDocId

/-- What a visit of a signed record gives. -/
theorem visit_of_signed {t : Records} {keys : PublicKeys} {r : ProvenanceRecord} (hr : r ∈ t.rows)
    (hsigned : Signed keys r) :
    visit t keys r.docId =
      match r.parentHash with
      | none => .ok none
      | some h =>
        match recordsByChainHash t.rows h with
        | none => .error (.brokenChain r.docId "parent_hash references missing record")
        | some p => .ok (some p.docId) := by
  obtain ⟨pk, hpk, hverify⟩ := hsigned
  simp only [visit, Records.getRecord_mem hr, hpk, hverify]

/-- A document that the loop gets past has a signed record. -/
theorem signed_of_visit {t : Records} {keys : PublicKeys} {docId : String} {p : Option String}
    (h : visit t keys docId = .ok p) : ∃ r ∈ t.rows, r.docId = docId ∧ Signed keys r := by
  rw [visit] at h
  split at h
  · cases h
  next r hr =>
    obtain ⟨hmem, hdoc⟩ := Records.getRecord_eq_some.mp hr
    split at h
    · cases h
    next pk hpk =>
      split at h
      · cases h
      next hverify => exact ⟨r, hmem, hdoc, pk, hpk, hverify⟩

theorem mem_docs_of_visit {t : Records} {keys : PublicKeys} (docId : String) (p : Option String)
    (h : visit t keys docId = .ok p) : docId ∈ t.rows.map ProvenanceRecord.docId := by
  obtain ⟨r, hr, rfl, -⟩ := signed_of_visit h
  exact List.mem_map_of_mem hr

/-- The loop ends, without running out of fuel. -/
theorem verifyChain_ends (t : Records) (keys : PublicKeys) (docId : String) :
    ∃ r, verifyChain t keys docId = some r := by
  rw [verifyChain, ← List.length_map ProvenanceRecord.docId]
  exact walk_total mem_docs_of_visit docId

/-! ## Rooted records -/

/-- A signed record whose parents lead to a record without a parent, all of them signed. -/
inductive Rooted (t : Records) (keys : PublicKeys) : ProvenanceRecord → Prop
  | genesis {r : ProvenanceRecord} : Signed keys r → r.parentHash = none → Rooted t keys r
  | child {r p : ProvenanceRecord} :
    Signed keys r → t.parentOf r = some p → Rooted t keys p → Rooted t keys r

/-- A parent hash of a rooted record is the chain hash of a stored one. -/
theorem Rooted.parentHash_mem {t : Records} {keys : PublicKeys} {r : ProvenanceRecord}
    (h : Rooted t keys r) {hash : Bytes} (hhash : r.parentHash = some hash) :
    ∃ p ∈ t.rows, hash = (chainHash p).bytes := by
  cases h with
  | genesis _ hnone => cases hnone.symm.trans hhash
  | @child _ p _ hp _ =>
    obtain ⟨hmem, hphash⟩ := Records.parentOf_eq_some hp
    exact ⟨p, hmem, Option.some.inj (hhash.symm.trans hphash)⟩

/-- The walk ends at a record without a parent hash. -/
theorem visit_eq_none {t : Records} {keys : PublicKeys} {r : ProvenanceRecord} (hr : r ∈ t.rows)
    (hsigned : Signed keys r) : visit t keys r.docId = .ok none ↔ r.parentHash = none := by
  rw [visit_of_signed hr hsigned]
  cases r.parentHash with
  | none => simp
  | some h => cases hp : recordsByChainHash t.rows h <;> simp [hp]

/-- Otherwise it goes on to the parent. -/
theorem visit_eq_some {t : Records} {keys : PublicKeys} {r : ProvenanceRecord} (hr : r ∈ t.rows)
    (hsigned : Signed keys r) {docId : String} :
    Points (visit t keys) r.docId docId ↔ ∃ p, t.parentOf r = some p ∧ p.docId = docId := by
  rw [Points, visit_of_signed hr hsigned, Records.parentOf]
  cases r.parentHash with
  | none => simp
  | some h => cases hp : recordsByChainHash t.rows h <;> simp [hp]

/-- A walk is grounded exactly if its record is rooted. -/
theorem grounded_iff_rooted {t : Records} {keys : PublicKeys} {r : ProvenanceRecord}
    (hr : r ∈ t.rows) : Grounded (visit t keys) r.docId ↔ Rooted t keys r := by
  refine ⟨?_, ?_⟩
  · intro h
    generalize hdoc : r.docId = docId at h
    induction h generalizing r with
    | last hlast =>
      obtain ⟨x, hx, hxdoc, hsigned⟩ := signed_of_visit hlast
      obtain rfl := t.eq_of_docId hr hx (hdoc.trans hxdoc.symm)
      exact .genesis hsigned ((visit_eq_none hr hsigned).mp (hdoc ▸ hlast))
    | step hpoints _ ih =>
      obtain ⟨x, hx, hxdoc, hsigned⟩ := signed_of_visit hpoints
      obtain rfl := t.eq_of_docId hr hx (hdoc.trans hxdoc.symm)
      obtain ⟨p, hp, hpdoc⟩ := (visit_eq_some hr hsigned).mp (hdoc ▸ hpoints)
      exact .child hsigned hp (ih (Records.parentOf_eq_some hp).1 hpdoc)
  · intro h
    induction h with
    | genesis hsigned hnone => exact .last ((visit_eq_none hr hsigned).mpr hnone)
    | child hsigned hp _ ih =>
      exact .step ((visit_eq_some hr hsigned).mpr ⟨_, hp, rfl⟩)
        (ih (Records.parentOf_eq_some hp).1)

/-- **`verify_chain` accepts exactly the rooted records.** -/
theorem verifyChain_eq_ok {t : Records} {keys : PublicKeys} {r : ProvenanceRecord}
    (hr : r ∈ t.rows) : verifyChain t keys r.docId = some (.ok ()) ↔ Rooted t keys r := by
  rw [← grounded_iff_rooted hr, verifyChain, ← List.length_map ProvenanceRecord.docId]
  exact walk_eq_ok mem_docs_of_visit

/-! ## Row by row against document by document -/

/-- The first record has the second one for its parent. -/
def Records.Parent (t : Records) (r p : ProvenanceRecord) : Prop :=
  r ∈ t.rows ∧ t.parentOf r = some p

theorem points_of_parent {t : Records} {keys : PublicKeys} (hsigned : ∀ r ∈ t.rows, Signed keys r)
    {r p : ProvenanceRecord} (h : t.Parent r p) : Points (visit t keys) r.docId p.docId :=
  (visit_eq_some h.1 (hsigned r h.1)).mpr ⟨p, h.2, rfl⟩

theorem parent_of_points {t : Records} {keys : PublicKeys} {r : ProvenanceRecord} (hr : r ∈ t.rows)
    {docId : String} (h : Points (visit t keys) r.docId docId) :
    ∃ p ∈ t.rows, p.docId = docId ∧ t.Parent r p := by
  obtain ⟨x, hx, hdoc, hsigned⟩ := signed_of_visit h
  obtain rfl := t.eq_of_docId hx hr hdoc
  obtain ⟨p, hp, hpdoc⟩ := (visit_eq_some hx hsigned).mp h
  exact ⟨p, (Records.parentOf_eq_some hp).1, hpdoc, hx, hp⟩

theorem parents_of_points {t : Records} {keys : PublicKeys} {r : ProvenanceRecord}
    (hr : r ∈ t.rows) {docId : String} (h : TransGen (Points (visit t keys)) r.docId docId) :
    ∃ p ∈ t.rows, p.docId = docId ∧ TransGen t.Parent r p := by
  induction h with
  | single hpoints =>
    obtain ⟨p, hp, hdoc, hparent⟩ := parent_of_points hr hpoints
    exact ⟨p, hp, hdoc, .single hparent⟩
  | tail _ hpoints ih =>
    obtain ⟨q, hq, rfl, hancestor⟩ := ih
    obtain ⟨p, hp, hdoc, hparent⟩ := parent_of_points hq hpoints
    exact ⟨p, hp, hdoc, hancestor.tail hparent⟩

/-- Whatever the walk reaches is a record that is reached by parents. -/
theorem mem_of_reaches {t : Records} {keys : PublicKeys} {r : ProvenanceRecord} (hr : r ∈ t.rows)
    {docId : String} (h : ReflTransGen (Points (visit t keys)) r.docId docId) :
    ∃ p ∈ t.rows, p.docId = docId := by
  rcases reflTransGen_iff_eq_or_transGen.mp h with rfl | h
  · exact ⟨r, hr, rfl⟩
  · obtain ⟨p, hp, hdoc, -⟩ := parents_of_points hr h
    exact ⟨p, hp, hdoc⟩

/-- Signed records are all rooted if and only if their parents are found and go round in no
circle. -/
theorem rooted_of_signed {t : Records} {keys : PublicKeys} (hsigned : ∀ r ∈ t.rows, Signed keys r) :
    (∀ r ∈ t.rows, Rooted t keys r) ↔ t.Resolved ∧ ∀ r, ¬TransGen t.Parent r r := by
  refine ⟨?_, ?_⟩
  · intro hrooted
    refine ⟨fun r hr h hh => ?_, fun r hcycle => ?_⟩
    · obtain ⟨p, hp, rfl⟩ := (hrooted r hr).parentHash_mem hh
      exact ⟨p, hp, rfl⟩
    · obtain ⟨p, hp, -⟩ := TransGen.head'_iff.mp hcycle
      refine ((grounded_iff_rooted hp.1).mpr (hrooted r hp.1)).acyclic ?_
      exact hcycle.lift _ fun a b h => points_of_parent hsigned h
  · rintro ⟨hresolved, hacyclic⟩ r hr
    rw [← grounded_iff_rooted hr]
    refine grounded_of_reaches mem_docs_of_visit (fun docId => .notFound docId) ?_ ?_
    · intro docId hreach e he
      obtain ⟨p, hp, rfl⟩ := mem_of_reaches hr hreach
      cases hhash : p.parentHash with
      | none => cases ((visit_eq_none hp (hsigned p hp)).mpr hhash).symm.trans he
      | some h =>
        obtain ⟨q, hq⟩ := hresolved.parentOf hp hhash
        cases ((visit_eq_some hp (hsigned p hp)).mpr ⟨q, hq, rfl⟩).symm.trans he
    · intro docId hreach hcycle
      obtain ⟨p, hp, rfl⟩ := mem_of_reaches hr hreach
      obtain ⟨q, hq, hdoc, hancestor⟩ := parents_of_points hp hcycle
      obtain rfl := t.eq_of_docId hq hp hdoc
      exact hacyclic q hancestor

/-- **`verify_all` against `verify_chain`.** No complaint of `verify_all` means that
`verify_chain` accepts every document if and only if some record is not signed, or every parent hash
is found and no record is its own ancestor. -/
theorem verifyAll_implies_verifyChain_iff (t : Records) (keys : PublicKeys) :
    (verifyAll t keys = [] → ∀ r ∈ t.rows, verifyChain t keys r.docId = some (.ok ())) ↔
      (∃ r ∈ t.rows, ¬Signed keys r) ∨ t.Resolved ∧ ∀ r, ¬TransGen t.Parent r r := by
  have hrooted : (∀ r ∈ t.rows, verifyChain t keys r.docId = some (.ok ())) ↔
      ∀ r ∈ t.rows, Rooted t keys r := forall₂_congr fun _ hr => verifyChain_eq_ok hr
  rw [verifyAll_eq_nil, hrooted]
  by_cases hsigned : ∀ r ∈ t.rows, Signed keys r
  · have hnone : ¬∃ r ∈ t.rows, ¬Signed keys r := fun ⟨r, hr, hunsigned⟩ => hunsigned (hsigned r hr)
    rw [rooted_of_signed hsigned, or_iff_right hnone]
    exact ⟨fun h => h hsigned, fun h _ => h⟩
  · refine iff_of_true (fun h => absurd h hsigned) (.inl ?_)
    obtain ⟨r, hr⟩ := not_forall.mp hsigned
    obtain ⟨hmem, hunsigned⟩ := Classical.not_imp.mp hr
    exact ⟨r, hmem, hunsigned⟩

end Chains

end Signatures

/-- A key pair of an agent. -/
def agentKey : SigningKey := ⟨Digest.zero.bytes, Digest.zero.length_eq⟩

/-- The keys of a set of agents that all use one. -/
def agentKeys [Ed25519] : PublicKeys := fun _ => some (Ed25519.verifyingKey agentKey)

/-- One signed record, with a parent hash that no record has. -/
def orphan [Ed25519] : Records where
  rows :=
    let parentHash := some (List.replicate 32 1)
    [⟨"doc-b", "cascade-2.1", "2.1.0", "file:///b.rs", (Ed25519.sign agentKey (signMessage "doc-b"
      "cascade-2.1" "2.1.0" "file:///b.rs" Digest.zero.bytes parentHash)).val, parentHash,
      Digest.zero.bytes, 0⟩]
  nodup := List.nodup_singleton _

/-- `verify_all` has no complaint about it, and `verify_chain` does not accept it. -/
theorem orphan_unnoticed :
    let _ := Ed25519.checksum
    let _ := ContentHash.checksum
    verifyAll orphan agentKeys = [] ∧ verifyChain orphan agentKeys "doc-b" =
      some (.error (.brokenChain "doc-b" "parent_hash references missing record")) := by
  intro _ _
  have hsigned : ∀ r ∈ orphan.rows, Signed agentKeys r := by
    intro r hr
    obtain rfl := List.mem_singleton.mp hr
    exact signed_of_sign rfl rfl
  exact ⟨verifyAll_eq_nil.mpr hsigned, by decide +kernel⟩

end SynapseMemory.Provenance
