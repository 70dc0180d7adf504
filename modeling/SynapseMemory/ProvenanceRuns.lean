import SynapseMemory.Provenance
import SynapseMemory.Transition

/-!
# Signing into the provenance table

`sign_and_append` signs a record, with the chain hash of its parent as it is stored now, and writes
it with `INSERT OR REPLACE`. Signing a document again takes its old record out of the table. The
records that have the old chain hash for their parent hash then lead nowhere, and so does the new
record if the document was named as its own parent.

Records whose parents all lead to an end stay so exactly if each call of the run stores a new
document, or a record with the chain hash of the one it replaces, or replaces a record that nothing
refers to.
-/

namespace SynapseMemory.Provenance

open Transition

/-- `AgentIdentity` -/
structure AgentIdentity where
  secretB64 : String
  agentId : String

/-- The arguments of `sign_and_append`, and the time it reads. -/
structure Call where
  docId : String
  agentVersion : String
  sourceUri : String
  content : Bytes
  parentDocId : Option String
  now : ℤ

/-- `insert_record` -/
def Records.insertRecord (t : Records) (r : ProvenanceRecord) : Records where
  rows := (t.rows.filter fun x => x.docId ≠ r.docId) ++ [r]
  nodup := by
    rw [List.map_append]
    refine (t.nodup.sublist (List.filter_sublist.map _)).append (List.nodup_singleton _) ?_
    intro docId hold hnew
    obtain ⟨x, hx, rfl⟩ := List.mem_map.mp hold
    exact of_decide_eq_true (List.mem_filter.mp hx).2 (List.mem_singleton.mp hnew)

theorem Records.mem_insertRecord {t : Records} {r x : ProvenanceRecord} :
    x ∈ (t.insertRecord r).rows ↔ x ∈ t.rows ∧ x.docId ≠ r.docId ∨ x = r := by
  rw [insertRecord, List.mem_append, List.mem_filter, decide_eq_true_eq, List.mem_singleton]

theorem insertRecord_subset (t : Records) (r : ProvenanceRecord) :
    (t.insertRecord r).rows ⊆ t.rows ++ [r] := by
  intro x hx
  rcases Records.mem_insertRecord.mp hx with ⟨hx, -⟩ | rfl
  · exact List.mem_append_left _ hx
  · exact List.mem_append_right _ List.mem_cons_self

section Parent

variable [ContentHash]

/-- `get_chain_hash`. None where copying a stored blob panics, because it has another length. -/
def getChainHash (t : Records) (docId : String) : Option (Option Digest) :=
  match t.getRecord docId with
  | none => some none
  | some r =>
    if r.signature.length = sigLen ∧ ∀ h ∈ r.parentHash, h.length = hashLen then
      some (some (ContentHash.blake3
        (Bytes.ofString docId ++ (r.signature ++ r.parentHash.getD Digest.zero.bytes))))
    else none

/-- The parent hash of a new record. -/
def parentHash (t : Records) : Option String → Option (Except ProvenanceError (Option Bytes))
  | none => some (.ok none)
  | some pid =>
    match getChainHash t pid with
    | none => none
    | some none => some (.error (.notFound ("parent doc " ++ pid ++ " not found")))
    | some (some h) => some (.ok (some h.bytes))

/-- A hash that was looked up is that of a record. -/
theorem getChainHash_eq_some {t : Records} {docId : String} {h : Digest}
    (hhash : getChainHash t docId = some (some h)) :
    ∃ p ∈ t.rows, p.docId = docId ∧ h = chainHash p := by
  rw [getChainHash] at hhash
  cases hget : t.getRecord docId with
  | none => simp [hget] at hhash
  | some p =>
    obtain ⟨hp, rfl⟩ := Records.getRecord_eq_some.mp hget
    simp only [hget] at hhash
    split at hhash
    · exact ⟨p, hp, rfl, (Option.some.inj (Option.some.inj hhash)).symm⟩
    · cases hhash

end Parent

section Sign

variable [Ed25519]

/-- `signing_key` -/
def AgentIdentity.signingKey (identity : AgentIdentity) : Except ProvenanceError SigningKey :=
  match Ed25519.decodeBase64 identity.secretB64 with
  | .error e => .error (.base64 e)
  | .ok b => if h : b.length = 32 then .ok ⟨b, h⟩ else .error (.ed25519 "bad secret key len")

variable [ContentHash]

/-- The record that `sign_and_append` signs. -/
def newRecord (identity : AgentIdentity) (t : Records) (c : Call) :
    Option (Except ProvenanceError ProvenanceRecord) :=
  let contentHash := (ContentHash.blake3 c.content).bytes
  match parentHash t c.parentDocId with
  | none => none
  | some (.error e) => some (.error e)
  | some (.ok parentHash) =>
    let msg := signMessage c.docId identity.agentId c.agentVersion c.sourceUri contentHash
      parentHash
    match identity.signingKey with
    | .error e => some (.error e)
    | .ok sk =>
      some (.ok ⟨c.docId, identity.agentId, c.agentVersion, c.sourceUri, (Ed25519.sign sk msg).val,
        parentHash, contentHash, c.now⟩)

/-- `sign_and_append`. It is `none` where the hash of the parent panics. -/
def signAndAppend (identity : AgentIdentity) (t : Records) (c : Call) :
    Option (Except ProvenanceError (Records × ProvenanceRecord)) :=
  match newRecord identity t c with
  | none => none
  | some (.error e) => some (.error e)
  | some (.ok r) => some (.ok (t.insertRecord r, r))

/-- The table after a call. A call that fails leaves it as it is. -/
def signStep (identity : AgentIdentity) (t : Records) (c : Call) : Option Records :=
  match signAndAppend identity t c with
  | none => none
  | some (.error _) => some t
  | some (.ok (t', _)) => some t'

/-! ## What a call does -/

/-- A call fails and changes nothing, or it appends its record. -/
theorem signStep_cases {identity : AgentIdentity} {t t' : Records} {c : Call}
    (h : signStep identity t c = some t') :
    (∃ e, newRecord identity t c = some (.error e) ∧ t' = t) ∨
      ∃ r, newRecord identity t c = some (.ok r) ∧ t' = t.insertRecord r := by
  rw [signStep, signAndAppend] at h
  cases hnew : newRecord identity t c with
  | none => simp [hnew] at h
  | some result =>
    cases result with
    | error e =>
      rw [hnew] at h
      exact .inl ⟨e, rfl, (Option.some.inj h).symm⟩
    | ok r =>
      rw [hnew] at h
      exact .inr ⟨r, rfl, (Option.some.inj h).symm⟩

/-- The new record is signed with the agent's key, and its parent hash is the chain hash of the
parent that was asked for. -/
theorem newRecord_ok {identity : AgentIdentity} {t : Records} {c : Call} {r : ProvenanceRecord}
    (h : newRecord identity t c = some (.ok r)) :
    r.docId = c.docId ∧ r.agentId = identity.agentId ∧
      (∃ sk, identity.signingKey = .ok sk ∧ r.signature = (Ed25519.sign sk (signMessage r.docId
        r.agentId r.agentVersion r.sourceUri r.contentHash r.parentHash)).val) ∧
      ((c.parentDocId = none ∧ r.parentHash = none) ∨
        ∃ p ∈ t.rows, c.parentDocId = some p.docId ∧ r.parentHash = some (chainHash p).bytes) := by
  rw [newRecord] at h
  cases hparent : parentHash t c.parentDocId with
  | none => simp [hparent] at h
  | some result =>
    cases result with
    | error e => simp [hparent] at h
    | ok parent =>
      cases hkey : identity.signingKey with
      | error e => simp [hparent, hkey] at h
      | ok sk =>
        simp only [hparent, hkey] at h
        obtain rfl := Except.ok.inj (Option.some.inj h)
        refine ⟨rfl, rfl, ⟨sk, rfl, rfl⟩, ?_⟩
        cases hpid : c.parentDocId with
        | none =>
          rw [hpid, parentHash] at hparent
          cases hparent
          exact .inl ⟨rfl, rfl⟩
        | some pid =>
          rw [hpid, parentHash] at hparent
          split at hparent
          · cases hparent
          · cases hparent
          next h hchain =>
            obtain ⟨p, hp, rfl, rfl⟩ := getChainHash_eq_some hchain
            cases hparent
            exact .inr ⟨p, hp, rfl, rfl⟩

end Sign

/-! ## Chain hashes tell records apart -/

/-- The lengths that `sign_and_append` writes. -/
structure WellFormed (r : ProvenanceRecord) : Prop where
  signature : r.signature.length = sigLen
  parentHash : ∀ h ∈ r.parentHash, h.length = hashLen

/-- What the chain hash tells of a record of these lengths. -/
theorem chainInput_inj {a b : ProvenanceRecord} (ha : WellFormed a) (hb : WellFormed b)
    (h : chainInput a = chainInput b) :
    a.docId = b.docId ∧ a.signature = b.signature ∧
      a.parentHash.getD Digest.zero.bytes = b.parentHash.getD Digest.zero.bytes := by
  have hlength : ∀ r, WellFormed r → (r.parentHash.getD Digest.zero.bytes).length = hashLen := by
    intro r hr
    cases hparent : r.parentHash with
    | none => exact Digest.zero.length_eq
    | some p => exact hr.parentHash p hparent
  have htail : (a.signature ++ a.parentHash.getD Digest.zero.bytes).length =
      (b.signature ++ b.parentHash.getD Digest.zero.bytes).length := by
    rw [List.length_append, List.length_append, ha.signature, hb.signature, hlength a ha,
      hlength b hb]
  obtain ⟨hdoc, hrest⟩ := List.append_inj' h htail
  obtain ⟨hsig, hparent⟩ := List.append_inj hrest (ha.signature.trans hb.signature.symm)
  exact ⟨Bytes.ofString_inj.mp hdoc, hsig, hparent⟩

section Hash

variable [ContentHash]

/-- The hash does not collide on what is hashed of these records. -/
def Distinct (rows : List ProvenanceRecord) : Prop :=
  CollisionFree ContentHash.blake3 (rows.map chainInput)

theorem Distinct.chainHash {rows : List ProvenanceRecord} (h : Distinct rows)
    {a b : ProvenanceRecord} (ha : a ∈ rows) (hb : b ∈ rows) (hwa : WellFormed a)
    (hwb : WellFormed b) (heq : chainHash a = chainHash b) :
    a.docId = b.docId ∧ a.signature = b.signature ∧
      a.parentHash.getD Digest.zero.bytes = b.parentHash.getD Digest.zero.bytes :=
  chainInput_inj hwa hwb (h.inj _ (List.mem_map_of_mem ha) _ (List.mem_map_of_mem hb) heq)

theorem Distinct.ne_zero {rows : List ProvenanceRecord} (h : Distinct rows)
    {p : ProvenanceRecord} (hp : p ∈ rows) : (Provenance.chainHash p).bytes ≠ Digest.zero.bytes :=
  fun heq => CollisionFree.ne_zero h _ (List.mem_map_of_mem hp) (Digest.ext heq)

theorem Distinct.mono {rows rows' : List ProvenanceRecord} (h : Distinct rows')
    (hsub : rows ⊆ rows') : Distinct rows :=
  CollisionFree.mono h (List.map_subset _ hsub)

/-- A parent hash leads to the record it was taken of. -/
theorem Records.parentOf_of_mem {t : Records} (hdistinct : Distinct t.rows)
    (hwf : ∀ r ∈ t.rows, WellFormed r) {r p : ProvenanceRecord} (hp : p ∈ t.rows)
    (h : r.parentHash = some (chainHash p).bytes) : t.parentOf r = some p := by
  obtain ⟨q, hq⟩ := recordsByChainHash_isSome hp
  obtain ⟨hmem, hhash⟩ := mem_of_recordsByChainHash hq
  obtain ⟨hdoc, -⟩ := hdistinct.chainHash hmem hp (hwf q hmem) (hwf p hp) (Digest.ext hhash)
  obtain rfl := t.eq_of_docId hmem hp hdoc
  rw [parentOf, h, Option.bind_some, hq]

end Hash

/-! ## Replacing a record -/

section Replace

variable [Ed25519] [ContentHash]

/-- No record is its own parent. -/
theorem Rooted.parentOf_ne {t : Records} {keys : PublicKeys} {r : ProvenanceRecord}
    (h : Rooted t keys r) : t.parentOf r ≠ some r := by
  induction h with
  | @genesis r _ hnone =>
    rw [Records.parentOf, hnone]
    exact (Option.some_ne_none r).symm
  | child _ hp _ ih =>
    intro hself
    obtain rfl := Option.some.inj (hp.symm.trans hself)
    exact ih hself

/-- Nothing refers to the record that goes: the other records stay rooted. -/
theorem Rooted.of_unreferenced {t : Records} {keys : PublicKeys} {new : ProvenanceRecord}
    (hdistinct : Distinct (t.insertRecord new).rows)
    (hwf : ∀ r ∈ (t.insertRecord new).rows, WellFormed r)
    (hfree : ∀ r ∈ t.rows, ∀ p ∈ t.rows, p.docId = new.docId →
      r.parentHash ≠ some (chainHash p).bytes)
    {r : ProvenanceRecord} (h : Rooted t keys r) (hr : r ∈ t.rows) :
    Rooted (t.insertRecord new) keys r := by
  induction h with
  | genesis hsigned hnone => exact .genesis hsigned hnone
  | @child r p hsigned hp _ ih =>
    obtain ⟨hmem, hhash⟩ := Records.parentOf_eq_some hp
    have hdoc : p.docId ≠ new.docId := fun hdoc => hfree r hr p hmem hdoc hhash
    have hkept : p ∈ (t.insertRecord new).rows := Records.mem_insertRecord.mpr (.inl ⟨hmem, hdoc⟩)
    exact .child hsigned (Records.parentOf_of_mem hdistinct hwf hkept hhash) (ih hmem)

/-- The new record takes the place of the one that goes: the records stay rooted. -/
theorem Rooted.of_sameHash {t : Records} {keys : PublicKeys} {old new : ProvenanceRecord}
    (hdistinct : Distinct (t.insertRecord new).rows)
    (hwf : ∀ r ∈ (t.insertRecord new).rows, WellFormed r) (hold : old ∈ t.rows)
    (hdoc : new.docId = old.docId) (hhash : chainHash new = chainHash old)
    (hparent : new.parentHash = old.parentHash) (hsigned : Signed keys new)
    {r : ProvenanceRecord} (h : Rooted t keys r) (hr : r ∈ t.rows) :
    Rooted (t.insertRecord new) keys (if r.docId = new.docId then new else r) := by
  have hplace : ∀ x ∈ t.rows, x.docId = new.docId → x = old := fun x hx hxdoc =>
    t.eq_of_docId hx hold (hxdoc.trans hdoc)
  induction h with
  | @genesis r hsigned' hnone =>
    split
    next hr' =>
      obtain rfl := hplace r hr hr'
      exact .genesis hsigned (hparent.trans hnone)
    next => exact .genesis hsigned' hnone
  | @child r p hsigned' hp _ ih =>
    obtain ⟨hmem, hphash⟩ := Records.parentOf_eq_some hp
    have hkept : (if p.docId = new.docId then new else p) ∈ (t.insertRecord new).rows ∧
        chainHash (if p.docId = new.docId then new else p) = chainHash p := by
      split
      next hp' =>
        obtain rfl := hplace p hmem hp'
        exact ⟨Records.mem_insertRecord.mpr (.inr rfl), hhash⟩
      next hp' => exact ⟨Records.mem_insertRecord.mpr (.inl ⟨hmem, hp'⟩), rfl⟩
    have hlead : ∀ x : ProvenanceRecord, x.parentHash = r.parentHash →
        (t.insertRecord new).parentOf x = some (if p.docId = new.docId then new else p) :=
      fun x hx => Records.parentOf_of_mem hdistinct hwf hkept.1 (by rw [hx, hphash, hkept.2])
    split
    next hr' =>
      obtain rfl := hplace r hr hr'
      exact .child hsigned (hlead new hparent) (ih hmem)
    next => exact .child hsigned' (hlead r rfl) (ih hmem)

end Replace

/-! ## Runs -/

section Runs

variable [Ed25519] [ContentHash]

/-- The call stores a new document, or a record with the chain hash of the one it replaces, or
replaces a record that no stored one refers to, and not as its own parent. -/
def Harmless (identity : AgentIdentity) (t : Records) (c : Call) : Prop :=
  ∀ result ∈ newRecord identity t c, ∀ new ∈ result.toOption, ∀ old ∈ t.getRecord c.docId,
    chainHash new = chainHash old ∨
      (c.parentDocId ≠ some c.docId ∧ ∀ r ∈ t.rows, r.parentHash ≠ some (chainHash old).bytes)

instance (identity : AgentIdentity) (t : Records) (c : Call) : Decidable (Harmless identity t c) :=
  inferInstanceAs (Decidable (∀ result ∈ newRecord identity t c, ∀ new ∈ result.toOption,
    ∀ old ∈ t.getRecord c.docId, chainHash new = chainHash old ∨
      (c.parentDocId ≠ some c.docId ∧ ∀ r ∈ t.rows, r.parentHash ≠ some (chainHash old).bytes)))

/-- The records that the calls sign. -/
def signedRecords (identity : AgentIdentity) : Records → List Call → List ProvenanceRecord
  | _, [] => []
  | t, c :: rest =>
    match newRecord identity t c with
    | none => []
    | some (.error _) => signedRecords identity t rest
    | some (.ok r) => r :: signedRecords identity (t.insertRecord r) rest

/-- The hash does not collide on the stored records and the one that the call signs. -/
def Known (identity : AgentIdentity) (t : Records) (c : Call) : Prop :=
  ∀ new, newRecord identity t c = some (.ok new) → Distinct (t.rows ++ [new])

/-- If all hashes are distinct, every call knows its parent. -/
theorem meets_known {identity : AgentIdentity} {calls : List Call} {t : Records}
    (h : Distinct (t.rows ++ signedRecords identity t calls)) :
    Meets (signStep identity) (Known identity) t calls := by
  induction calls generalizing t with
  | nil => exact trivial
  | cons c rest ih =>
    refine ⟨?_, ?_⟩
    · intro new hnew
      rw [signedRecords, hnew, List.append_cons] at h
      exact h.mono (List.subset_append_left _ _)
    · intro t' hstep
      rcases signStep_cases hstep with ⟨e, hnew, rfl⟩ | ⟨new, hnew, rfl⟩
      · rw [signedRecords, hnew] at h
        exact ih h
      · rw [signedRecords, hnew, List.append_cons] at h
        refine ih (h.mono fun x hx => ?_)
        rcases List.mem_append.mp hx with hx | hx
        · exact List.mem_append_left _ (insertRecord_subset t new hx)
        · exact List.mem_append_right _ hx

/-- What every call keeps of the stored records. -/
structure Sound (keys : PublicKeys) (t : Records) : Prop where
  wellFormed : ∀ r ∈ t.rows, WellFormed r
  signed : ∀ r ∈ t.rows, Signed keys r

variable {identity : AgentIdentity} {keys : PublicKeys}

/-- A new record is well-formed. -/
theorem wellFormed_new {t : Records} {c : Call} {new : ProvenanceRecord}
    (hnew : newRecord identity t c = some (.ok new)) : WellFormed new := by
  obtain ⟨-, -, ⟨sk, -, hsig⟩, hparent⟩ := newRecord_ok hnew
  refine ⟨?_, ?_⟩
  · rw [hsig]
    exact (Ed25519.sign sk _).property
  · intro h hh
    rcases hparent with ⟨-, hnone⟩ | ⟨p, -, -, hp⟩
    · cases hnone.symm.trans hh
    · obtain rfl := Option.some.inj (hp.symm.trans hh)
      exact (chainHash p).length_eq

/-- A parent hash of the new record is the chain hash of a stored one. -/
theorem parentHash_new {t : Records} {c : Call} {new : ProvenanceRecord}
    (hnew : newRecord identity t c = some (.ok new)) {hash : Bytes}
    (hhash : new.parentHash = some hash) : ∃ p ∈ t.rows, hash = (chainHash p).bytes := by
  obtain ⟨-, -, -, ⟨-, hnone⟩ | ⟨p, hp, -, hphash⟩⟩ := newRecord_ok hnew
  · cases hnone.symm.trans hhash
  · exact ⟨p, hp, Option.some.inj (hhash.symm.trans hphash)⟩

/-- If the records are rooted after the call, the call was harmless. -/
theorem harmless_of_rooted {t : Records} {c : Call} {new : ProvenanceRecord} (hsound : Sound keys t)
    (hrooted : ∀ r ∈ t.rows, Rooted t keys r) (hnew : newRecord identity t c = some (.ok new))
    (hall : Distinct (t.rows ++ [new]))
    (hrooted' : ∀ r ∈ (t.insertRecord new).rows, Rooted (t.insertRecord new) keys r) :
    Harmless identity t c := by
  have hfirst : t.rows ⊆ t.rows ++ [new] := List.subset_append_left _ _
  obtain ⟨hdoc, -, -, hparent⟩ := newRecord_ok hnew
  intro result hresult new' hnew' old hold
  obtain rfl := Option.some.inj (hnew.symm.trans hresult)
  obtain rfl := Option.some.inj hnew'
  obtain ⟨hmem, holddoc⟩ := Records.getRecord_eq_some.mp hold
  refine or_iff_not_imp_left.mpr fun hhash => ?_
  -- the old chain hash is gone from the table, so no rooted record has it for its parent hash
  have hgone : ∀ r ∈ (t.insertRecord new).rows, r.parentHash ≠ some (chainHash old).bytes := by
    intro r hr hrhash
    obtain ⟨p, hp, hphash⟩ := (hrooted' r hr).parentHash_mem hrhash
    have heq : chainHash p = chainHash old := Digest.ext hphash.symm
    rcases Records.mem_insertRecord.mp hp with ⟨hpold, hpdoc⟩ | rfl
    · obtain ⟨hdocs, -⟩ := hall.chainHash (hfirst hpold) (hfirst hmem)
        (hsound.wellFormed p hpold) (hsound.wellFormed old hmem) heq
      exact hpdoc (hdocs.trans (holddoc.trans hdoc.symm))
    · exact hhash heq
  refine ⟨?_, ?_⟩
  · intro hself
    rcases hparent with ⟨hnone, -⟩ | ⟨p, hp, hpid, hphash⟩
    · cases hnone.symm.trans hself
    · have hpdoc : p.docId = old.docId :=
        (Option.some.inj (hpid.symm.trans hself)).trans holddoc.symm
      obtain rfl := t.eq_of_docId hp hmem hpdoc
      exact hgone new (Records.mem_insertRecord.mpr (.inr rfl)) hphash
  · intro r hr hrhash
    by_cases hrdoc : r.docId = new.docId
    · obtain rfl := t.eq_of_docId hr hmem (hrdoc.trans (hdoc.trans holddoc.symm))
      refine (hrooted r hr).parentOf_ne ?_
      exact Records.parentOf_of_mem (hall.mono hfirst) hsound.wellFormed hr hrhash
    · exact hgone r (Records.mem_insertRecord.mpr (.inl ⟨hr, hrdoc⟩)) hrhash

variable (hkey : ∀ sk, identity.signingKey = .ok sk →
  keys identity.agentId = some (Ed25519.verifyingKey sk))
include hkey

theorem signed_new {t : Records} {c : Call} {new : ProvenanceRecord}
    (hnew : newRecord identity t c = some (.ok new)) : Signed keys new := by
  obtain ⟨-, hagent, ⟨sk, hsk, hsig⟩, -⟩ := newRecord_ok hnew
  exact signed_of_sign (hagent ▸ hkey sk hsk) hsig

theorem sound_insert {t : Records} {c : Call} {new : ProvenanceRecord} (hsound : Sound keys t)
    (hnew : newRecord identity t c = some (.ok new)) : Sound keys (t.insertRecord new) := by
  refine ⟨?_, ?_⟩
  · intro r hr
    rcases Records.mem_insertRecord.mp hr with ⟨hr, -⟩ | rfl
    · exact hsound.wellFormed r hr
    · exact wellFormed_new hnew
  · intro r hr
    rcases Records.mem_insertRecord.mp hr with ⟨hr, -⟩ | rfl
    · exact hsound.signed r hr
    · exact signed_new hkey hnew

theorem sound_step {t t' : Records} {c : Call} (hsound : Sound keys t)
    (hstep : signStep identity t c = some t') : Sound keys t' := by
  rcases signStep_cases hstep with ⟨e, -, rfl⟩ | ⟨new, hnew, rfl⟩
  · exact hsound
  · exact sound_insert hkey hsound hnew

/-- The call stores a new document, or replaces a record that nothing refers to. -/
theorem rooted_of_unreferenced {t : Records} {c : Call} {new : ProvenanceRecord}
    (hsound : Sound keys t) (hrooted : ∀ r ∈ t.rows, Rooted t keys r)
    (hnew : newRecord identity t c = some (.ok new)) (hall : Distinct (t.rows ++ [new]))
    (hself : c.parentDocId ≠ some c.docId ∨ ∀ r ∈ t.rows, r.docId ≠ c.docId)
    (hfree : ∀ r ∈ t.rows, ∀ p ∈ t.rows, p.docId = c.docId →
      r.parentHash ≠ some (chainHash p).bytes) :
    ∀ r ∈ (t.insertRecord new).rows, Rooted (t.insertRecord new) keys r := by
  obtain ⟨hdoc, -, -, hparent⟩ := newRecord_ok hnew
  have hdistinct := hall.mono (insertRecord_subset t new)
  have hwf := (sound_insert hkey hsound hnew).wellFormed
  have hkept : ∀ r ∈ t.rows, Rooted (t.insertRecord new) keys r := fun r hr =>
    (hrooted r hr).of_unreferenced hdistinct hwf
      (fun r hr p hp hpdoc => hfree r hr p hp (hpdoc.trans hdoc)) hr
  intro r hr
  rcases Records.mem_insertRecord.mp hr with ⟨hr, -⟩ | rfl
  · exact hkept r hr
  · have hsigned := signed_new hkey hnew
    rcases hparent with ⟨-, hnone⟩ | ⟨p, hp, hpid, hhash⟩
    · exact .genesis hsigned hnone
    · have hpdoc : p.docId ≠ r.docId := by
        rw [hdoc]
        rcases hself with hself | habsent
        · exact fun heq => hself (heq ▸ hpid)
        · exact habsent p hp
      have hpkept := Records.mem_insertRecord.mpr (.inl ⟨hp, hpdoc⟩)
      exact .child hsigned (Records.parentOf_of_mem hdistinct hwf hpkept hhash) (hkept p hp)

/-- The call stores a record with the chain hash of the one it replaces. -/
theorem rooted_of_sameHash {t : Records} {c : Call} {new old : ProvenanceRecord}
    (hsound : Sound keys t) (hrooted : ∀ r ∈ t.rows, Rooted t keys r)
    (hnew : newRecord identity t c = some (.ok new)) (hall : Distinct (t.rows ++ [new]))
    (hold : old ∈ t.rows) (hhash : chainHash new = chainHash old) :
    ∀ r ∈ (t.insertRecord new).rows, Rooted (t.insertRecord new) keys r := by
  have hsound' : Sound keys (t.insertRecord new) := sound_insert hkey hsound hnew
  have hfirst : t.rows ⊆ t.rows ++ [new] := List.subset_append_left _ _
  obtain ⟨hdoc, -, hgetD⟩ := hall.chainHash (List.mem_append_right _ List.mem_cons_self)
    (hfirst hold) (wellFormed_new hnew) (hsound.wellFormed old hold) hhash
  -- zeros stand for no parent, and no chain hash is zeros
  have hnotzero : ∀ r : ProvenanceRecord, (∀ h, r.parentHash = some h →
      ∃ p ∈ t.rows, h = (chainHash p).bytes) → r.parentHash ≠ some Digest.zero.bytes := by
    intro r hr hzero
    obtain ⟨p, hp, heq⟩ := hr _ hzero
    exact hall.ne_zero (hfirst hp) heq.symm
  have hparent : new.parentHash = old.parentHash :=
    Option.eq_of_getD_eq (hnotzero new fun _ => parentHash_new hnew)
      (hnotzero old fun _ => (hrooted old hold).parentHash_mem) hgetD
  have hswap : ∀ r ∈ t.rows,
      Rooted (t.insertRecord new) keys (if r.docId = new.docId then new else r) := fun r hr =>
    (hrooted r hr).of_sameHash (hall.mono (insertRecord_subset t new)) hsound'.wellFormed hold hdoc
      hhash hparent (signed_new hkey hnew) hr
  intro r hr
  rcases Records.mem_insertRecord.mp hr with ⟨hr, hrdoc⟩ | rfl
  · have hkept := hswap r hr
    rwa [if_neg hrdoc] at hkept
  · have hplace := hswap old hold
    rwa [if_pos hdoc.symm] at hplace

/-- **One call.** The records stay rooted if and only if the call is harmless. -/
theorem rooted_step {t t' : Records} {c : Call} (hsound : Sound keys t)
    (hrooted : ∀ r ∈ t.rows, Rooted t keys r) (hknown : Known identity t c)
    (hstep : signStep identity t c = some t') :
    (∀ r ∈ t'.rows, Rooted t' keys r) ↔ Harmless identity t c := by
  rcases signStep_cases hstep with ⟨e, hnew, rfl⟩ | ⟨new, hnew, rfl⟩
  · refine iff_of_true hrooted ?_
    rintro result hresult r hr
    obtain rfl := Option.some.inj (hnew.symm.trans hresult)
    cases hr
  · have hall := hknown new hnew
    refine ⟨harmless_of_rooted hsound hrooted hnew hall, fun hharmless => ?_⟩
    cases hold : t.getRecord c.docId with
    | none =>
      have habsent := Records.getRecord_eq_none.mp hold
      exact rooted_of_unreferenced hkey hsound hrooted hnew hall (.inr habsent)
        fun _ _ p hp hpdoc => absurd hpdoc (habsent p hp)
    | some old =>
      obtain ⟨hmem, holddoc⟩ := Records.getRecord_eq_some.mp hold
      rcases hharmless _ hnew new rfl old hold with hhash | ⟨hself, hfree⟩
      · exact rooted_of_sameHash hkey hsound hrooted hnew hall hmem hhash
      · refine rooted_of_unreferenced hkey hsound hrooted hnew hall (.inl hself) ?_
        intro r hr p hp hpdoc
        obtain rfl := t.eq_of_docId hp hmem (hpdoc.trans holddoc.symm)
        exact hfree r hr

/-- Every document that has a record verifies. -/
def Verifiable (keys : PublicKeys) (t : Records) : Prop :=
  ∀ r ∈ t.rows, verifyChain t keys r.docId = some (.ok ())

omit hkey in
theorem verifiable_iff {t : Records} : Verifiable keys t ↔ ∀ r ∈ t.rows, Rooted t keys r :=
  forall₂_congr fun _ hr => verifyChain_eq_ok hr

/-- No call panics. -/
theorem sign_ends {t : Records} (hsound : Sound keys t) (calls : List Call) :
    ∃ t', run (signStep identity) t calls = some t' := by
  refine run_possible (Sound keys) (fun _ _ _ => sound_step hkey) (fun t c hsound => ?_) hsound
  have hhash : ∀ docId, getChainHash t docId ≠ none := by
    intro docId hnone
    rw [getChainHash] at hnone
    split at hnone
    · cases hnone
    next r hr =>
      have hwf := hsound.wellFormed r (Records.getRecord_eq_some.mp hr).1
      rw [if_pos ⟨hwf.signature, hwf.parentHash⟩] at hnone
      cases hnone
  have hparent : ∀ pid, parentHash t pid ≠ none := by
    intro pid hnone
    cases pid with
    | none => cases hnone
    | some pid =>
      rw [parentHash] at hnone
      split at hnone
      next hpanic => exact hhash _ hpanic
      · cases hnone
      · cases hnone
  rw [signStep, signAndAppend, newRecord]
  cases hp : parentHash t c.parentDocId with
  | none => exact absurd hp (hparent _)
  | some result =>
    cases result with
    | error e => exact ⟨t, rfl⟩
    | ok parent =>
      cases identity.signingKey with
      | error e => exact ⟨t, rfl⟩
      | ok sk => exact ⟨_, rfl⟩

/-- **Signing with one key.** In every state of a run of calls every document that has a record
verifies, if and only if each call is harmless. -/
theorem signing_verifiable_iff {calls : List Call}
    (hdistinct : Distinct (signedRecords identity Records.empty calls)) :
    Along (signStep identity) (Verifiable keys) Records.empty calls ↔
      Meets (signStep identity) (Harmless identity) Records.empty calls := by
  have hsound : Sound keys Records.empty := ⟨nofun, nofun⟩
  obtain ⟨t, hrun⟩ := sign_ends hkey hsound calls
  refine along_iff_meets (Sound keys) (Verifiable keys) (fun _ _ _ => sound_step hkey) ?_ hrun
    (meets_known hdistinct) hsound nofun
  intro t c t' hsound hverifiable hknown hstep
  rw [verifiable_iff]
  exact rooted_step hkey hsound (verifiable_iff.mp hverifiable) hknown hstep

end Runs

/-- An agent whose secret is zeros. -/
def agent : AgentIdentity := ⟨"AAAAAAAAAAAAAAAAAAAAAAAAAAAAAAAAAAAAAAAAAAA=", "cascade-2.1"⟩

/-- A document, its child, and the document once more with the same content. -/
def signedAgain : List Call :=
  [⟨"doc-a", "2.1.0", "file:///a.rs", [97], none, 0⟩,
    ⟨"doc-b", "2.1.0", "file:///b.rs", [98], some "doc-a", 1⟩,
    ⟨"doc-a", "2.1.0", "file:///a.rs", [97], none, 2⟩]

/-- A document that is signed again. -/
theorem signedAgain_verifiable :
    let _ := Ed25519.checksum
    let _ := ContentHash.checksum
    Along (signStep agent) (Verifiable agentKeys) Records.empty signedAgain := by
  have hmeets : Meets (@signStep Ed25519.checksum ContentHash.checksum agent)
      (@Harmless Ed25519.checksum ContentHash.checksum agent) Records.empty signedAgain := by
    decide +kernel
  intro _ _
  have hsecret : agent.signingKey = .ok agentKey := by decide +kernel
  have hkey : ∀ sk, agent.signingKey = .ok sk →
      agentKeys agent.agentId = some (Ed25519.verifyingKey sk) := by
    intro sk hsk
    obtain rfl := Except.ok.inj (hsecret.symm.trans hsk)
    rfl
  have hdistinct : CollisionFree ContentHash.blake3
      ((signedRecords agent Records.empty signedAgain).map chainInput) := by decide +kernel
  exact (signing_verifiable_iff hkey hdistinct).mpr hmeets

/-- A document, and a second version of it with the first one for its parent. -/
def ownParent : List Call :=
  [⟨"doc-a", "2.1.0", "file:///a.rs", [97], none, 0⟩,
    ⟨"doc-a", "2.1.0", "file:///a.rs", [98], some "doc-a", 1⟩]

/-- Both calls succeed, and the document does not verify. -/
theorem ownParent_broken :
    let _ := Ed25519.checksum
    let _ := ContentHash.checksum
    (signedRecords agent Records.empty ownParent).length = 2 ∧
      ∃ t, run (signStep agent) Records.empty ownParent = some t ∧ t.getRecord "doc-a" ≠ none ∧
        verifyChain t agentKeys "doc-a" =
          some (.error (.brokenChain "doc-a" "parent_hash references missing record")) := by
  intro _ _
  exact ⟨by decide +kernel, _, rfl, by decide +kernel, by decide +kernel⟩

end SynapseMemory.Provenance
