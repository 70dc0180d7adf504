import SynapseMemory.Ingest
import SynapseMemory.Transition

/-!
# The check of embeddings

An embedding that is stored should have `embedDim` entries, all of them finite, and a call that
brings another one should be refused. `put` and `put_signed` check both. The loop of `put_batch` has
a check of its own that looks at the length only, so a batch with an infinite entry or a NaN goes
through, and where the text is new the embedding is stored.

`Rejects` is what is asked of one call and `AllValid` what is asked of the store. The first gives
the second over whole runs, and a call is as it should be exactly if it is not such a batch
(`BatchChecked`).
-/

namespace SynapseMemory

namespace Store

open Proto Transition

section Calls

variable [Blake3]

/-- `put_signed`; the signature goes into a column of its own. -/
def putSigned (s : Store) (now : ℤ) (req : PutRequest) : Except Error (Store × ℤ) :=
  s.putInner now req

/-- A call of one of the three ways to put documents. -/
inductive PutCall where
  | put (now : ℤ) (req : PutRequest)
  | putSigned (now : ℤ) (req : PutRequest)
  | putBatch (reqs : List (ℤ × PutRequest))

/-- The requests of a call. -/
def PutCall.requests : PutCall → List PutRequest
  | .put _ req => [req]
  | .putSigned _ req => [req]
  | .putBatch reqs => reqs.map Prod.snd

/-- The store after a call, and the ids it answered with. -/
def call (s : Store) : PutCall → Except Error (Store × List ℤ)
  | .put now req => (s.put now req).map fun r => (r.1, [r.2])
  | .putSigned now req => (s.putSigned now req).map fun r => (r.1, [r.2])
  | .putBatch reqs => s.putBatch reqs

/-- One call of a run. -/
def callStep (s : Store) (c : PutCall) : Option Store := some (s.after (s.call c))

omit [Blake3] in
/-- Every embedding of the call passes the check. -/
def PutCall.Valid (c : PutCall) : Prop :=
  ∀ req ∈ c.requests, checkEmbedding req.embedding = .ok ()

/-- Every embedding in `docs_vec` passes the check. -/
def AllValid (s : Store) : Prop := ∀ v ∈ s.vecs, checkEmbedding (some v.2) = .ok ()

/-- A call that brings an embedding that does not pass is refused, and the store is as it was. -/
def Rejects (s : Store) (c : PutCall) : Prop :=
  ¬c.Valid → (∃ e, s.call c = .error e) ∧ s.after (s.call c) = s

/-- A batch that can be stored, and whose embeddings all have the right length, brings valid
ones. -/
def BatchChecked (s : Store) : PutCall → Prop
  | .putBatch reqs => (∀ r ∈ reqs, checkLength r.2.embedding = .ok ()) →
      s.Storable (reqs.map Prod.snd) → (PutCall.putBatch reqs).Valid
  | _ => True

/-! ## One call -/

theorem rejects_iff_ok {s : Store} {c : PutCall} :
    s.Rejects c ↔ ((∃ r, s.call c = .ok r) → c.Valid) := by
  refine ⟨?_, ?_⟩
  · rintro h ⟨r, hr⟩
    by_contra hvalid
    obtain ⟨⟨e, he⟩, -⟩ := h hvalid
    rw [hr] at he
    cases he
  · intro h hvalid
    cases hcall : s.call c with
    | error e => exact ⟨⟨e, rfl⟩, rfl⟩
    | ok r => exact absurd (h ⟨r, hcall⟩) hvalid

/-- A put that goes through has a valid embedding. -/
theorem putInner_valid {s : Store} {now : ℤ} {req : PutRequest}
    (h : ∃ r, (s.putInner now req).map (fun r => (r.1, [r.2])) = .ok r) :
    checkEmbedding req.embedding = .ok () := by
  obtain ⟨r, hr⟩ := h
  obtain ⟨p, hput, -⟩ := map_eq_ok.mp hr
  exact (putInner_ok.mp hput).1

/-- A call is as it should be, unless it is a batch with a bad embedding of the right length. -/
theorem rejects_iff {s : Store} {c : PutCall} : s.Rejects c ↔ s.BatchChecked c := by
  rw [rejects_iff_ok]
  cases c with
  | put now req =>
    refine iff_of_true (fun h => ?_) trivial
    exact List.forall_mem_singleton.mpr (putInner_valid h)
  | putSigned now req =>
    refine iff_of_true (fun h => ?_) trivial
    exact List.forall_mem_singleton.mpr (putInner_valid h)
  | putBatch reqs =>
    change ((∃ r, s.putBatch reqs = .ok r) → _) ↔ _
    rw [putBatch_isOk, and_imp]
    rfl

/-- An insert keeps the vectors valid. -/
theorem AllValid.inserted {s s' : Store} {now id : ℤ} {req : PutRequest} (h : s.AllValid)
    (hnew : Inserted s now req s' id) (hreq : checkEmbedding req.embedding = .ok ()) :
    s'.AllValid := by
  intro v hv
  rw [hnew.vecs_eq] at hv
  rcases List.mem_append.mp hv with hv | hv
  · exact h v hv
  · obtain ⟨e, he, rfl⟩ := Option.map_eq_some_iff.mp (Option.mem_toList.mp hv)
    rw [he] at hreq
    exact hreq

/-- A batch of valid embeddings keeps them valid. -/
theorem AllValid.putBatch {s s' : Store} {reqs : List (ℤ × PutRequest)} {ids : List ℤ}
    (h : s.AllValid) (hvalid : ∀ r ∈ reqs, checkEmbedding r.2.embedding = .ok ())
    (hbatch : s.putBatch reqs = .ok (s', ids)) : s'.AllValid := by
  induction reqs generalizing s ids with
  | nil =>
    cases hbatch
    exact h
  | cons r rest ih =>
    obtain ⟨now, req⟩ := r
    obtain ⟨hreq, hrest⟩ := List.forall_mem_cons.mp hvalid
    obtain ⟨t, id, ids', rfl, hrow, hbatchRest⟩ := putBatch_cons hbatch
    rcases findOrInsert_ok hrow with ⟨d, -, rfl, -⟩ | hnew
    · exact ih h hrest hbatchRest
    · exact ih (h.inserted hnew hreq) hrest hbatchRest

theorem AllValid.putInner {s s' : Store} {now id : ℤ} {req : PutRequest} (h : s.AllValid)
    (hput : s.putInner now req = .ok (s', id)) : s'.AllValid := by
  have hreq := (putInner_ok.mp hput).1
  exact h.putBatch (List.forall_mem_singleton.mpr hreq) (putBatch_of_putInner hput)

/-- A call that rejects what it should keeps the stored embeddings valid. -/
theorem AllValid.call {s : Store} {c : PutCall} (h : s.AllValid) (hrejects : s.Rejects c) :
    (s.after (s.call c)).AllValid := by
  cases hcall : s.call c with
  | error e => exact h
  | ok r =>
    have hvalid : c.Valid := rejects_iff_ok.mp hrejects ⟨r, hcall⟩
    obtain ⟨t, ids⟩ := r
    cases c with
    | put now req =>
      obtain ⟨⟨u, id⟩, hput, heq⟩ := map_eq_ok.mp hcall
      cases heq
      exact h.putInner hput
    | putSigned now req =>
      obtain ⟨⟨u, id⟩, hput, heq⟩ := map_eq_ok.mp hcall
      cases heq
      exact h.putInner hput
    | putBatch reqs =>
      refine h.putBatch ?_ hcall
      exact fun r hr => hvalid r.2 (List.mem_map_of_mem hr)

/-! ## Runs -/

/-- In a run from a store with valid embeddings every call is as it should be and every state has
valid embeddings, exactly if every batch of the run that can be stored is checked. -/
theorem embeddings_checked_iff (s : Store) (calls : List PutCall) (hs : s.AllValid) :
    (Meets callStep Rejects s calls ∧ Along callStep AllValid s calls) ↔
      Meets callStep BatchChecked s calls := by
  have hiff : Meets callStep Rejects s calls ↔ Meets callStep BatchChecked s calls :=
    Meets.congr (fun _ => True) (fun _ _ _ _ _ => trivial) (fun _ _ _ => rejects_iff) trivial
  rw [← hiff]
  refine and_iff_left_of_imp fun hmeets => hmeets.along AllValid ?_ hs
  intro t c t' ht hrejects hstep
  obtain rfl := Option.some.inj hstep
  exact ht.call hrejects

end Calls

/-- A request with an embedding. -/
def withEmbedding (text : String) (e : List F32) : PutRequest where
  uri := none
  title := none
  text := text
  meta_ := none
  embedding := some e

/-- The quiet NaN. -/
def nan : F32 := 0x7FC00000#32

/-- A put with a good embedding, then one with an entry too few. -/
theorem shortEmbedding_rejected :
    let _ := Blake3.identity
    let calls := [PutCall.put 0 (withEmbedding "a" (List.replicate 384 0)),
      PutCall.put 1 (withEmbedding "b" (List.replicate 383 0))]
    Meets callStep Rejects empty calls ∧ Along callStep AllValid empty calls := by
  intro _ calls
  refine (embeddings_checked_iff empty calls nofun).mpr ?_
  exact ⟨trivial, fun _ _ => ⟨trivial, fun _ _ => trivial⟩⟩

/-- A batch with one NaN in a new store. -/
def nanBatch : PutCall := .putBatch [(0, withEmbedding "a" (nan :: List.replicate 383 0))]

/-- The store after a batch whose only embedding holds something that is not a number. -/
def nanStore : @Store Blake3.identity :=
  let _ := Blake3.identity
  empty.after (empty.call nanBatch)

theorem nanStore_vecs :
    @vecs Blake3.identity nanStore = [(1, nan :: List.replicate 383 0)] := by
  decide +kernel

theorem nan_invalid : checkEmbedding (some (nan :: List.replicate 383 0)) ≠ .ok () := by
  decide +kernel

/-- The batch is not refused, and leaves an embedding that is not valid. -/
theorem nanBatch_stored :
    let _ := Blake3.identity
    ¬(Meets callStep Rejects empty [nanBatch] ∧ Along callStep AllValid empty [nanBatch]) := by
  rintro _ ⟨-, halong⟩
  have hall : AllValid (@nanStore) := halong [nanBatch] (List.prefix_refl _) nanStore rfl
  have hmem : (1, nan :: List.replicate 383 0) ∈ nanStore.vecs := by
    rw [nanStore_vecs]
    exact List.mem_cons_self
  have hvalid := hall (1, nan :: List.replicate 383 0) hmem
  exact nan_invalid hvalid

end Store

end SynapseMemory
