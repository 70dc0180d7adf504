import SynapseMemory.Bytes
import SynapseMemory.HashChain
import SynapseMemory.Transition
import SynapseMemory.Store

/-!
# The audit log

The model of `synapse-audit`: the table `audit_events`, `append`, and `verify_chain`. An event is
hashed with the hash of the event before it, so the rows form a hash chain (`HashChain`), and the
verification of a log is that its rows are linked.

The hash is taken of one string of bytes, in which the actor, the action, the target, the space and
the meta follow each other without a separator, and an absent space or meta leaves nothing. Two
events whose details join to the same bytes cannot be told apart by their hashes. What else a change
of the stored rows can do is caught: the rows of a log are linked in one order only.
-/

namespace SynapseMemory.Audit

/-- What an event is about. -/
inductive Action where
  | read
  | write
  | delete
  | grant
  | revoke
  deriving DecidableEq

/-- The action as it is stored. -/
def Action.asStr : Action → String
  | .read => "read"
  | .write => "write"
  | .delete => "delete"
  | .grant => "grant"
  | .revoke => "revoke"

/-- What a row says of its event besides the time. -/
structure Details where
  actor : String
  action : String
  target : String
  space : Option String
  meta_ : Option String
  deriving DecidableEq

/-- A row of `audit_events`. -/
structure Row where
  id : ℤ
  ts : ℤ
  details : Details
  prevHash : Option Digest
  hash : Digest
  deriving DecidableEq

/-- Why an append or a verification fails. -/
inductive AuditError where
  | sqlite (message : String)
  | brokenChain (id : ℤ) (expected got : Digest)
  deriving DecidableEq

/-- The bytes of the details, one field after the other. -/
def Details.bytes (d : Details) : Bytes :=
  Bytes.ofString d.actor ++ Bytes.ofString d.action ++ Bytes.ofString d.target ++
    (d.space.map Bytes.ofString).getD [] ++ (d.meta_.map Bytes.ofString).getD []

/-- What `event_hash` hashes. -/
def eventInput (ts : ℤ) (d : Details) (prevHash : Option Digest) : Bytes :=
  (prevHash.getD Digest.zero).bytes ++ (Bytes.ofI64 ts ++ d.bytes)

/-- `event_hash`: the hash of an event after the hash of the event before. -/
def eventHash [ContentHash] (ts : ℤ) (d : Details) (prevHash : Option Digest) : Digest :=
  ContentHash.blake3 (eventInput ts d prevHash)

/-- The table, in the order of the ids, with the last id that was given out. -/
structure Log where
  rows : List Row
  seq : ℤ
  sorted : rows.Pairwise fun a b => a.id < b.id
  le_seq : ∀ r ∈ rows, r.id ≤ seq

namespace Log

/-- A log without events. -/
def empty : Log := ⟨[], 0, List.Pairwise.nil, by simp⟩

/-- The hash of the row with the greatest id. -/
def lastHash (log : Log) : Option Digest := log.rows.getLast?.map Row.hash

/-- The `INSERT` of an append. -/
def insert (log : Log) (ts : ℤ) (d : Details) (prevHash : Option Digest) (hash : Digest) :
    Except AuditError (Log × ℤ) :=
  if log.seq < maxRowid then
    .ok ({ rows := log.rows ++ [⟨log.seq + 1, ts, d, prevHash, hash⟩]
           seq := log.seq + 1
           sorted := by
             refine List.pairwise_append.mpr ⟨log.sorted, List.pairwise_singleton _ _, ?_⟩
             intro a ha b hb
             obtain rfl := List.mem_singleton.mp hb
             exact Int.lt_add_one_of_le (log.le_seq a ha)
           le_seq := by
             intro r hr
             rcases List.mem_append.mp hr with hr | hr
             · exact (log.le_seq r hr).trans (Int.le_of_lt (Int.lt_succ log.seq))
             · obtain rfl := List.mem_singleton.mp hr
               exact le_refl _ }, log.seq + 1)
  else .error (.sqlite "database or disk is full")

theorem insert_ok {log log' : Log} {ts id : ℤ} {d : Details} {prevHash : Option Digest}
    {hash : Digest} (h : log.insert ts d prevHash hash = .ok (log', id)) :
    log'.rows = log.rows ++ [⟨log.seq + 1, ts, d, prevHash, hash⟩] := by
  rw [insert] at h
  split at h
  next =>
    cases h
    rfl
  next => cases h

end Log

/-- The arguments of an append, and the time it reads. -/
structure Call where
  ts : ℤ
  actor : String
  action : Action
  target : String
  space : Option String
  meta_ : Option String

/-- The fields of a call that are stored. -/
def Call.details (c : Call) : Details := ⟨c.actor, c.action.asStr, c.target, c.space, c.meta_⟩

/-! ## Changing stored rows -/

/-- Rewrite stored rows in place. -/
def Log.update (log : Log) (f : Row → Row) (hid : ∀ r, (f r).id = r.id) : Log where
  rows := log.rows.map f
  seq := log.seq
  sorted := by
    refine List.pairwise_map.mpr (log.sorted.imp ?_)
    intro a b h
    rwa [hid, hid]
  le_seq := by
    intro r hr
    obtain ⟨x, hx, rfl⟩ := List.mem_map.mp hr
    rw [hid]
    exact log.le_seq x hx

/-- Other details for the row with an id, its hashes untouched. -/
def Log.tamper (log : Log) (id : ℤ) (d : Details) : Log :=
  log.update (fun r => if r.id = id then { r with details := d } else r) fun r => by
    split <;> rfl

/-- Tampering changes the details of one row. -/
theorem tamper_rows {log : Log} {a b : List Row} {r : Row} (h : log.rows = a ++ r :: b)
    (d : Details) : (log.tamper r.id d).rows = a ++ { r with details := d } :: b := by
  have hsorted := log.sorted
  rw [h] at hsorted
  obtain ⟨-, hrest, hbefore⟩ := List.pairwise_append.mp hsorted
  have hafter := (List.pairwise_cons.mp hrest).1
  change log.rows.map _ = _
  rw [h, List.map_append, List.map_cons, if_pos rfl]
  congr 1
  · refine (List.map_congr_left fun x hx => ?_).trans (List.map_id a)
    exact if_neg (ne_of_lt (hbefore x hx r List.mem_cons_self))
  · congr 1
    refine (List.map_congr_left fun x hx => ?_).trans (List.map_id b)
    exact if_neg (ne_of_gt (hafter x hx))

/-- `DELETE FROM audit_events WHERE id IN (…)` -/
def Log.delete (log : Log) (ids : Finset ℤ) : Log where
  rows := log.rows.filter fun r => r.id ∉ ids
  seq := log.seq
  sorted := log.sorted.filter _
  le_seq := fun r hr => log.le_seq r (List.mem_of_mem_filter hr)

/-- Exchange the contents of two rows: all columns but the ids. -/
def Log.swap (log : Log) (x y : Row) : Log :=
  log.update (fun r => if r.id = x.id then { y with id := r.id }
    else if r.id = y.id then { x with id := r.id } else r) fun r => by
      split
      · rfl
      · split <;> rfl

/-- Only the joined bytes of the details reach the hash. -/
theorem eventInput_eq_iff {ts : ℤ} {d d' : Details} {p : Option Digest} :
    eventInput ts d p = eventInput ts d' p ↔ d.bytes = d'.bytes := by
  rw [eventInput, eventInput, List.append_cancel_left_eq, List.append_cancel_left_eq]

/-! ## The hash chain -/

section Chain

variable [ContentHash]

/-- `append`: the last hash is read, and a row is inserted that goes on from it. -/
def append (log : Log) (c : Call) : Except AuditError (Log × ℤ) :=
  let prev := log.lastHash
  let hash := eventHash c.ts c.details prev
  log.insert c.ts c.details prev hash

/-- The loop of `verify_chain`. -/
def verifyFrom : Option Digest → List Row → Except AuditError Unit
  | _, [] => .ok ()
  | prev, r :: rest =>
    let expected := eventHash r.ts r.details prev
    if expected ≠ r.hash then .error (.brokenChain r.id expected r.hash)
    else if r.prevHash ≠ prev then
      .error (.brokenChain r.id (prev.getD Digest.zero) (r.prevHash.getD Digest.zero))
    else verifyFrom (some r.hash) rest

/-- `verify_chain`: the stored rows from the first on. -/
def verifyChain (log : Log) : Except AuditError Unit := verifyFrom none log.rows

/-- The rows as a hash chain. -/
def chain : HashChain Row Digest where
  prev := Row.prevHash
  hash := Row.hash
  link p r := eventHash r.ts r.details p

/-- `verify_chain` checks that the rows are linked. -/
theorem verifyFrom_ok {p : Option Digest} {rows : List Row} :
    verifyFrom p rows = .ok () ↔ chain.Linked p rows := by
  induction rows generalizing p with
  | nil => exact iff_of_true rfl trivial
  | cons r rest ih =>
    rw [verifyFrom, HashChain.Linked]
    by_cases hhash : eventHash r.ts r.details p = r.hash
    · by_cases hprev : r.prevHash = p
      · rw [if_neg (not_not.mpr hhash), if_neg (not_not.mpr hprev), ih]
        exact ⟨fun h => ⟨hhash, hprev, h⟩, fun h => h.2.2⟩
      · rw [if_neg (not_not.mpr hhash), if_pos hprev]
        exact iff_of_false (by simp) fun h => hprev h.2.1
    · rw [if_pos hhash]
      exact iff_of_false (by simp) fun h => hhash h.1

theorem verifyChain_error {log : Log} :
    (∃ e, verifyChain log = .error e) ↔ ¬chain.Linked none log.rows := by
  rw [← verifyFrom_ok, verifyChain]
  match h : verifyFrom none log.rows with
  | .ok () => simp
  | .error e => simp

/-! ## Logs made by appends -/

/-- An append that succeeds. -/
def appendStep (log : Log) (c : Call) : Option Log :=
  match append log c with
  | .ok (log', _) => some log'
  | .error _ => none

/-- The row that an append adds. -/
theorem appendStep_rows {log log' : Log} {c : Call} (h : appendStep log c = some log') :
    ∃ id, log'.rows = log.rows ++
      [⟨id, c.ts, c.details, log.lastHash, eventHash c.ts c.details log.lastHash⟩] := by
  rw [appendStep] at h
  match happend : append log c with
  | .ok (log'', id) =>
    rw [happend] at h
    obtain rfl := Option.some.inj h
    exact ⟨_, Log.insert_ok happend⟩
  | .error e =>
    rw [happend] at h
    cases h

theorem lastHash_eq (log : Log) : log.lastHash = chain.last none log.rows := by
  rw [HashChain.last_none]
  rfl

/-- One append goes on with the chain. -/
theorem linked_appendStep {log log' : Log} {c : Call} (h : appendStep log c = some log')
    (hlinked : chain.Linked none log.rows) : chain.Linked none log'.rows := by
  obtain ⟨id, hrows⟩ := appendStep_rows h
  rw [hrows, HashChain.linked_concat, ← lastHash_eq]
  exact ⟨hlinked, rfl, rfl⟩

/-- The log after a run of appends is linked. -/
theorem linked_run {calls : List Call} {log : Log}
    (hrun : Transition.run appendStep Log.empty calls = some log) : chain.Linked none log.rows :=
  Transition.run_preserves (fun log : Log => chain.Linked none log.rows)
    (fun _ _ _ hinv hstep => linked_appendStep hstep hinv) hrun trivial

/-! ## Changed details -/

/-- The changed row keeps its place in the chain if and only if it keeps its hash. -/
theorem linked_tamper {log : Log} (hlinked : chain.Linked none log.rows) {r : Row}
    (hr : r ∈ log.rows) (d : Details) :
    chain.Linked none (log.tamper r.id d).rows ↔
      eventHash r.ts d r.prevHash = eventHash r.ts r.details r.prevHash := by
  obtain ⟨a, b, h⟩ := List.append_of_mem hr
  have hhash : eventHash r.ts r.details r.prevHash = r.hash := hlinked.link_prev hr
  rw [h, HashChain.linked_append] at hlinked
  obtain ⟨hbefore, -, hprev, hafter⟩ := hlinked
  rw [tamper_rows h, HashChain.linked_append, hhash]
  refine ⟨?_, ?_⟩
  · rintro ⟨-, hlink, -⟩
    change eventHash r.ts d (chain.last none a) = r.hash at hlink
    rwa [← hprev] at hlink
  · intro hsame
    refine ⟨hbefore, ?_, hprev, hafter⟩
    change eventHash r.ts d (chain.last none a) = r.hash
    rw [← hprev]
    exact hsame

/-- A change of the details of a stored row is found by `verify_chain` if and only if the joined
bytes of the details change. -/
theorem tamper_detected_iff {calls : List Call} {log : Log}
    (hrun : Transition.run appendStep Log.empty calls = some log) {r : Row} (hr : r ∈ log.rows)
    (d : Details)
    (hfree : Set.InjOn ContentHash.blake3
      {eventInput r.ts r.details r.prevHash, eventInput r.ts d r.prevHash}) :
    (∃ e, verifyChain (log.tamper r.id d) = .error e) ↔ d.bytes ≠ r.details.bytes := by
  rw [verifyChain_error, linked_tamper (linked_run hrun) hr, not_iff_not, ← eventInput_eq_iff]
  refine ⟨?_, ?_⟩
  · exact fun h => hfree (.inr rfl) (.inl rfl) h
  · exact congrArg ContentHash.blake3

/-! ## Deleted and exchanged rows -/

/-- What the hashes of the rows were computed from. -/
def Log.inputs (log : Log) : List Bytes :=
  log.rows.map fun r => eventInput r.ts r.details r.prevHash

theorem hash_eq_of_linked {log : Log} (hlinked : chain.Linked none log.rows) {r : Row}
    (hr : r ∈ log.rows) : ContentHash.blake3 (eventInput r.ts r.details r.prevHash) = r.hash :=
  hlinked.link_prev hr

/-- A previous hash is not the all-zero one, which stands for none. -/
theorem prevHash_ne_zero {log : Log} (hlinked : chain.Linked none log.rows)
    (hfree : CollisionFree ContentHash.blake3 log.inputs) {r : Row} (hr : r ∈ log.rows) :
    r.prevHash ≠ some Digest.zero := by
  intro hzero
  rcases hlinked.prev_mem hr with hnone | ⟨r', hr', hprev⟩
  · exact absurd (hzero.symm.trans hnone) nofun
  · have hhash : r'.hash = Digest.zero := Option.some.inj (hprev.symm.trans hzero)
    rw [← hash_eq_of_linked hlinked hr'] at hhash
    exact hfree.ne_zero _ (List.mem_map.mpr ⟨r', hr', rfl⟩) hhash

/-- Equal hashes come from equal previous hashes. -/
theorem telling {log : Log} (hlinked : chain.Linked none log.rows)
    (hfree : CollisionFree ContentHash.blake3 log.inputs) : chain.Telling log.rows := by
  intro r hr r' hr' hhash
  change r.hash = r'.hash at hhash
  change r.prevHash = r'.prevHash
  rw [← hash_eq_of_linked hlinked hr, ← hash_eq_of_linked hlinked hr'] at hhash
  have hinput := hfree.inj _ (List.mem_map.mpr ⟨r, hr, rfl⟩) _ (List.mem_map.mpr ⟨r', hr', rfl⟩)
    hhash
  have hbytes := (List.append_inj hinput ((Digest.length_eq _).trans (Digest.length_eq _).symm)).1
  exact Option.eq_of_getD_eq (prevHash_ne_zero hlinked hfree hr)
    (prevHash_ne_zero hlinked hfree hr') (Digest.ext hbytes)

theorem not_linked_delete {log : Log} (hlinked : chain.Linked none log.rows)
    (hfree : CollisionFree ContentHash.blake3 log.inputs) {ids : Finset ℤ}
    (hgap : ¬(log.rows.filter fun r => r.id ∈ ids) <:+ log.rows) :
    ¬chain.Linked none (log.delete ids).rows := by
  intro hleft
  apply hgap
  apply hlinked.suffix_of_linked (telling hlinked hfree)
  simpa only [Log.delete, decide_not] using hleft

/-- The contents of a row, under no id. -/
def Row.contents (r : Row) : Row := { r with id := 0 }

theorem linked_contents {rows : List Row} :
    chain.Linked none (rows.map Row.contents) ↔ chain.Linked none rows := by
  apply HashChain.linked_map
  · exact fun _ => rfl
  · exact fun _ => rfl
  · exact fun _ _ => rfl

/-- A log is not linked after two rows were swapped. -/
theorem not_linked_swap {log : Log} (hlinked : chain.Linked none log.rows)
    (hfree : CollisionFree ContentHash.blake3 log.inputs) {x y : Row} (hx : x ∈ log.rows)
    (hy : y ∈ log.rows) (hne : x.hash ≠ y.hash) : ¬chain.Linked none (log.swap x y).rows := by
  intro hswapped
  have htell : chain.Telling (log.rows.map Row.contents) := by
    intro r hr r' hr' hhash
    obtain ⟨s, hs, rfl⟩ := List.mem_map.mp hr
    obtain ⟨s', hs', rfl⟩ := List.mem_map.mp hr'
    exact telling hlinked hfree s hs s' hs' hhash
  have hsub : (log.swap x y).rows.map Row.contents ⊆ log.rows.map Row.contents := by
    intro r hr
    obtain ⟨s, hs, rfl⟩ := List.mem_map.mp hr
    obtain ⟨z, hz, rfl⟩ := List.mem_map.mp hs
    split
    · exact List.mem_map.mpr ⟨y, hy, rfl⟩
    · split
      · exact List.mem_map.mpr ⟨x, hx, rfl⟩
      · exact List.mem_map.mpr ⟨z, hz, rfl⟩
  have hprefix := (linked_contents.mpr hlinked).prefix_of_linked htell hsub
    (linked_contents.mpr hswapped)
  have hlength : ((log.swap x y).rows.map Row.contents).length =
      (log.rows.map Row.contents).length := by
    rw [List.length_map, List.length_map]
    exact List.length_map _
  have hsame := hprefix.eq_of_length hlength
  rw [Log.swap, Log.update, List.map_map] at hsame
  have hplace := List.map_inj_left.mp hsame x hx
  rw [Function.comp_apply, if_pos rfl] at hplace
  exact hne (congrArg Row.hash hplace).symm

/-- A log made by appends verifies; without a set of rows that is not a suffix, or with two
different rows exchanged, it does not. -/
theorem verifyChain_sound {calls : List Call} {log : Log}
    (hrun : Transition.run appendStep Log.empty calls = some log)
    (hfree : CollisionFree ContentHash.blake3 log.inputs) :
    verifyChain log = .ok () ∧
    (∀ ids : Finset ℤ, ¬(log.rows.filter fun r => r.id ∈ ids) <:+ log.rows →
      ∃ e, verifyChain (log.delete ids) = .error e) ∧
    ∀ x ∈ log.rows, ∀ y ∈ log.rows, x.hash ≠ y.hash →
      ∃ e, verifyChain (log.swap x y) = .error e := by
  have hlinked := linked_run hrun
  refine ⟨verifyFrom_ok.mpr hlinked, fun ids hgap => ?_, fun x hx y hy hne => ?_⟩
  · exact verifyChain_error.mpr (not_linked_delete hlinked hfree hgap)
  · exact verifyChain_error.mpr (not_linked_swap hlinked hfree hx hy hne)

end Chain

/-- One append to a new log. -/
def oneWrite : List Call := [⟨0, "alice", .write, "doc1", some "acme", none⟩]

theorem run_oneWrite [ContentHash] :
    ∃ log r, Transition.run appendStep Log.empty oneWrite = some log ∧ r ∈ log.rows ∧
      r.ts = 0 ∧ r.prevHash = none ∧ r.details = ⟨"alice", "write", "doc1", some "acme", none⟩ :=
  ⟨_, _, rfl, List.mem_singleton_self _, rfl, rfl, rfl⟩

/-- Another target is found. -/
theorem otherTarget_detected :
    let _ := ContentHash.checksum
    ∃ log r, Transition.run appendStep Log.empty oneWrite = some log ∧ r ∈ log.rows ∧
      ∃ e, verifyChain (log.tamper r.id ⟨"alice", "write", "doc2", some "acme", none⟩) =
        .error e := by
  intro _
  obtain ⟨log, r, hrun, hr, hts, hprev, hdetails⟩ := run_oneWrite
  refine ⟨log, r, hrun, hr, (tamper_detected_iff hrun hr _ ?_).mpr ?_⟩
  · rw [hts, hprev, hdetails]
    exact Set.injOn_pair.mpr (by decide +kernel)
  · rw [hdetails]
    decide +kernel

/-- A space that has moved into the target is not found. -/
theorem movedSpace_undetected :
    let _ := ContentHash.checksum
    ∃ log r, Transition.run appendStep Log.empty oneWrite = some log ∧ r ∈ log.rows ∧
      ∃ d, d = ⟨"alice", "write", "doc1acme", none, none⟩ ∧ d ≠ r.details ∧
        verifyChain (log.tamper r.id d) = .ok () := by
  intro _
  obtain ⟨log, r, hrun, hr, -, -, hdetails⟩ := run_oneWrite
  refine ⟨log, r, hrun, hr, _, rfl, ?_, verifyFrom_ok.mpr ?_⟩
  · rw [hdetails]
    decide
  · rw [linked_tamper (linked_run hrun) hr, hdetails]
    exact congrArg ContentHash.blake3 (eventInput_eq_iff.mpr (by decide +kernel))

/-- Two appends to a new log. -/
def twoWrites : List Call :=
  [⟨0, "alice", .write, "doc1", some "acme", none⟩, ⟨1, "bob", .read, "doc1", some "acme", none⟩]

/-- Two writes. Neither a deletion nor a swap goes unnoticed. -/
theorem twoWrites_sound :
    let _ := ContentHash.checksum
    ∃ log x y, Transition.run appendStep Log.empty twoWrites = some log ∧ log.rows = [x, y] ∧
      verifyChain log = .ok () ∧ (∃ e, verifyChain (log.delete {1}) = .error e) ∧
      ∃ e, verifyChain (log.swap x y) = .error e := by
  intro _
  have hfree : ∃ log x y, Transition.run appendStep Log.empty twoWrites = some log ∧
      log.rows = [x, y] ∧ x.id = 1 ∧ y.id = 2 ∧ x.hash ≠ y.hash ∧
      CollisionFree Digest.checksum log.inputs :=
    ⟨_, _, _, rfl, rfl, rfl, rfl, by decide +kernel, by decide +kernel⟩
  obtain ⟨log, x, y, hrun, hrows, hx, hy, hne, hfree⟩ := hfree
  obtain ⟨hok, hdelete, hswap⟩ := verifyChain_sound hrun hfree
  refine ⟨log, x, y, hrun, hrows, hok, hdelete {1} ?_, hswap x ?_ y ?_ hne⟩
  · rintro ⟨before, hbefore⟩
    have hlast := congrArg List.getLast? hbefore
    have hxy : x = y := by simpa [hrows, hx, hy] using hlast
    exact hne (congrArg Row.hash hxy)
  · rw [hrows]
    exact List.mem_cons_self
  · rw [hrows]
    exact List.mem_cons_of_mem _ List.mem_cons_self

end SynapseMemory.Audit
