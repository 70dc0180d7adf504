import SynapseMemory.Audit

/-!
# Several writers of one audit log

`append` of `synapse-audit` is two statements on a connection: it reads the last hash, then it
inserts a row that carries it. No transaction holds them together, so a statement of another
connection can come between them. A run is a list of single statements in the order in which the
database executes them.

A row that was inserted with the hash of a row that is no longer the last one forks the chain, and
nothing that is inserted later mends it. So the log verifies after a run exactly if no insert came
between the read and the insert of another append.
-/

namespace SynapseMemory.Audit

open Transition

/-- The log, and for each connection the append it is in: its arguments and the hash it read. -/
structure Writers (ι : Type) where
  log : Log
  pending : ι → Option (Call × Option Digest)

/-- A statement of a connection. -/
inductive Stmt (ι : Type) where
  | readLast (i : ι) (c : Call)
  | insert (i : ι)

section
variable {ι : Type} [DecidableEq ι] [ContentHash]

/-- An empty log, and nobody has read it. -/
def Writers.new (ι : Type) : Writers ι := ⟨Log.empty, fun _ => none⟩

/-- Execute a statement. A connection is in one append at a time. -/
def Writers.step (w : Writers ι) : Stmt ι → Option (Writers ι)
  | .readLast i c =>
    match w.pending i with
    | none => some { w with pending := Function.update w.pending i (some (c, w.log.lastHash)) }
    | some _ => none
  | .insert i =>
    match w.pending i with
    | none => none
    | some (c, prev) =>
      let pending := Function.update w.pending i none
      match w.log.insert c.ts c.details prev (eventHash c.ts c.details prev) with
      | .ok (log, _) => some ⟨log, pending⟩
      | .error _ => some { w with pending }

/-- An append whose statements follow each other is `append`. -/
theorem step_alone (w : Writers ι) {i : ι} (hfree : w.pending i = none) {c : Call} {log : Log}
    {id : ℤ} (happend : append w.log c = .ok (log, id)) :
    ∃ w', run Writers.step w [.readLast i c, .insert i] = some w' ∧ w'.log = log := by
  have hread : w.step (.readLast i c) =
      some { w with pending := Function.update w.pending i (some (c, w.log.lastHash)) } := by
    rw [Writers.step, hfree]
  have hinsert : ∃ w', Writers.step
      { w with pending := Function.update w.pending i (some (c, w.log.lastHash)) } (.insert i) =
        some w' ∧ w'.log = log := by
    rw [append] at happend
    simp only [Writers.step, Function.update_self, happend]
    exact ⟨_, rfl, rfl⟩
  obtain ⟨w', hw', hlog⟩ := hinsert
  exact ⟨w', run_cons.mpr ⟨_, hread, run_cons.mpr ⟨w', hw', rfl⟩⟩, hlog⟩

/-- An insert that goes through finds the row last whose hash its append read. -/
def Undisturbed (w : Writers ι) : Stmt ι → Prop
  | .readLast _ _ => True
  | .insert i => ∀ p ∈ w.pending i, w.log.seq < maxRowid → p.2 = w.log.lastHash

instance (w : Writers ι) : (a : Stmt ι) → Decidable (Undisturbed w a)
  | .readLast _ _ => inferInstanceAs (Decidable True)
  | .insert i =>
    inferInstanceAs (Decidable (∀ p ∈ w.pending i, w.log.seq < maxRowid → p.2 = w.log.lastHash))

/-- What a statement does to the log. -/
theorem step_cases {w w' : Writers ι} {a : Stmt ι} (h : w.step a = some w') :
    (w'.log = w.log ∧ Undisturbed w a) ∨
      ∃ i c prev id, a = .insert i ∧ w.pending i = some (c, prev) ∧ w.log.seq < maxRowid ∧
        w'.log.rows =
          w.log.rows ++ [⟨id, c.ts, c.details, prev, eventHash c.ts c.details prev⟩] := by
  cases a with
  | readLast i c =>
    rw [Writers.step] at h
    split at h
    · cases h
      exact .inl ⟨rfl, trivial⟩
    · cases h
  | insert i =>
    rw [Writers.step] at h
    split at h
    · cases h
    next c prev hpending =>
      by_cases hroom : w.log.seq < maxRowid
      · right
        split at h
        next log id hinsert =>
          cases h
          exact ⟨i, c, prev, _, rfl, hpending, hroom, Log.insert_ok hinsert⟩
        next hinsert =>
          rw [Log.insert, if_pos hroom] at hinsert
          cases hinsert
      · left
        rw [Log.insert, if_neg hroom] at h
        cases h
        exact ⟨rfl, fun _ _ hroom' => absurd hroom' hroom⟩

/-- The log stays linked exactly if the statement is undisturbed. -/
theorem linked_step {w w' : Writers ι} {a : Stmt ι} (h : w.step a = some w') :
    chain.Linked none w'.log.rows ↔ chain.Linked none w.log.rows ∧ Undisturbed w a := by
  rcases step_cases h with ⟨hlog, hcond⟩ | ⟨i, c, prev, id, rfl, hpending, hroom, hrows⟩
  · rw [hlog, and_iff_left hcond]
  · rw [hrows, HashChain.linked_concat, ← lastHash_eq]
    refine ⟨?_, ?_⟩
    · rintro ⟨hlinked, -, hprev⟩
      refine ⟨hlinked, fun p hp _ => ?_⟩
      obtain rfl := Option.some.inj (hpending.symm.trans hp)
      exact hprev
    · rintro ⟨hlinked, hcond⟩
      obtain rfl : prev = _ := hcond (c, prev) hpending hroom
      exact ⟨hlinked, rfl, rfl⟩

/-- After the statements of any number of connections, in any order, the log verifies if and only
if every insert found the row last that its append had read. -/
theorem interleaving_verifies_iff {stmts : List (Stmt ι)} {w : Writers ι}
    (hrun : run Writers.step (Writers.new ι) stmts = some w) :
    verifyChain w.log = .ok () ↔ Meets Writers.step Undisturbed (Writers.new ι) stmts := by
  have hexact := run_keeps_iff (fun _ => True) (fun w : Writers ι => chain.Linked none w.log.rows)
    (fun _ _ _ _ _ => trivial) (fun _ _ _ _ hstep => linked_step hstep) hrun trivial
  rw [verifyChain, verifyFrom_ok, hexact]
  exact and_iff_right trivial

end

/-- Two appends, one after the other. -/
def inTurn : List (Stmt ℕ) :=
  [.readLast 0 ⟨0, "alice", .write, "doc1", none, none⟩, .insert 0,
    .readLast 1 ⟨0, "bob", .read, "doc1", none, none⟩, .insert 1]

theorem inTurn_verifies :
    let _ := ContentHash.checksum
    ∃ w, run Writers.step (Writers.new ℕ) inTurn = some w ∧ verifyChain w.log = .ok () := by
  intro _
  have hrun : ∃ w, run Writers.step (Writers.new ℕ) inTurn = some w := ⟨_, rfl⟩
  obtain ⟨w, hrun⟩ := hrun
  exact ⟨w, hrun, (interleaving_verifies_iff hrun).mpr (by decide +kernel)⟩

/-- Two appends that both read before either inserts. -/
def bothRead : List (Stmt ℕ) :=
  [.readLast 0 ⟨0, "alice", .write, "doc1", none, none⟩,
    .readLast 1 ⟨0, "bob", .read, "doc1", none, none⟩, .insert 0, .insert 1]

/-- Both have finished, and the log does not verify. -/
theorem bothRead_forks :
    let _ := ContentHash.checksum
    ∃ w, run Writers.step (Writers.new ℕ) bothRead = some w ∧ w.pending 0 = none ∧
      w.pending 1 = none ∧ ∃ e, verifyChain w.log = .error e := by
  intro _
  refine ⟨_, rfl, rfl, rfl, verifyChain_error.mpr ?_⟩
  -- the second row was inserted with the hash of no row before it
  rintro ⟨-, -, -, hprev, -⟩
  cases hprev

end SynapseMemory.Audit
