import SynapseMemory.Store
import SynapseMemory.Transition

/-!
# The full-text index of the store

`docs_fts` is an external-content table: it keeps postings and no texts, and it is told about each
change of `docs`. An insert adds one posting for each token of the row, and a delete removes one for
each token of the text it is given. The tokenizer is a parameter.

The index is kept right by the trigger on inserts. A delete goes two ways at once: `delete` removes
the row's postings itself, and then the trigger on `docs` removes them again. Where the totals of
the index do not suffice for this, it refuses the second command and nothing is deleted.
`fullText_exact_iff` says what this comes to over whole runs. The postings that were removed once
too often are never made up for, since an id is not given out again, so the index is exact after a
run exactly when no document with a token was deleted in it.
-/

namespace SynapseMemory

namespace Store

open Proto Transition

section Postings

variable [Tokenizer]

/-- What a command does to the postings of a term in a row. -/
def FtsCommand.net (term : String) (rowid : ℤ) : FtsCommand → ℤ
  | .insert id title text => if id = rowid then (tokensOf title text).count term else 0
  | .delete id title text => if id = rowid then -((tokensOf title text).count term : ℤ) else 0

/-- The postings of a term in a row: those that were added, less those that were removed. -/
def postings (log : List FtsCommand) (term : String) (rowid : ℤ) : ℤ :=
  (log.map (FtsCommand.net term rowid)).sum

theorem postings_append (log more : List FtsCommand) (term : String) (rowid : ℤ) :
    postings (log ++ more) term rowid = postings log term rowid + postings more term rowid := by
  rw [postings, List.map_append, List.sum_append]
  rfl

theorem postings_insert (id : ℤ) (title : Option String) (text term : String) (rowid : ℤ) :
    postings [.insert id title text] term rowid =
      if id = rowid then ((tokensOf title text).count term : ℤ) else 0 :=
  List.sum_singleton

/-- Commands about other rows leave the postings of a row alone. -/
theorem postings_map_delete_of_ne {rows : List Doc} {rowid : ℤ} (h : ∀ d ∈ rows, d.id ≠ rowid)
    (term : String) :
    postings (rows.map fun d => .delete d.id d.title d.text) term rowid = 0 := by
  apply List.sum_eq_zero
  intro n hn
  rw [List.map_map] at hn
  obtain ⟨d, hd, rfl⟩ := List.mem_map.mp hn
  exact if_neg (h d hd)

end Postings

/-! ## Runs -/

section Runs

variable [Blake3] [Tokenizer]

/-- The index holds the postings of each row of `docs`, and nothing else. -/
structure FtsExact (s : Store) : Prop where
  live : ∀ d ∈ s.docs.rows, ∀ term,
    postings s.fts term d.id = (tokensOf d.title d.text).count term
  gone : ∀ rowid, (∀ d ∈ s.docs.rows, d.id ≠ rowid) → ∀ term, postings s.fts term rowid = 0

/-- More postings were removed for a deleted row than were ever added. -/
def Overdrawn (s : Store) : Prop :=
  ∃ term rowid, postings s.fts term rowid < 0 ∧ rowid ≤ s.docs.seq ∧
    ∀ d ∈ s.docs.rows, d.id ≠ rowid

/-- The operation deletes no document with a token. One that the index cannot take off its totals
twice is not deleted. -/
def DeletesNoToken (s : Store) (op : Op) : Prop :=
  ∀ id, op = .delete id → ∀ d ∈ s.docs.rows, d.id = id → Spare s.fts d →
    tokensOf d.title d.text = []

theorem FtsExact.not_overdrawn {s : Store} (h : FtsExact s) : ¬Overdrawn s := by
  rintro ⟨term, rowid, hneg, -, hgone⟩
  rw [h.gone rowid hgone term] at hneg
  exact lt_irrefl 0 hneg

theorem FtsExact.empty : FtsExact Store.empty where
  live _ hd := nomatch hd
  gone _ _ _ := rfl

/-! ## Inserts -/

/-- An insert keeps the index exact. -/
theorem FtsExact.inserted {s s' : Store} {now id : ℤ} {req : PutRequest}
    (hnew : Inserted s now req s' id) (h : FtsExact s) : FtsExact s' := by
  have hold : ∀ d ∈ s.docs.rows, id ≠ d.id := by
    intro d hd heq
    have := s.docs.le_seq d hd
    rw [hnew.id_eq] at heq
    change d.id ≤ s.docs.seq at this
    omega
  refine ⟨fun d hd term => ?_, fun rowid hrow term => ?_⟩
  · rw [hnew.fts_eq, postings_append, postings_insert]
    rw [hnew.rows_eq] at hd
    rcases List.mem_append.mp hd with hd | hd
    · rw [if_neg (hold d hd), add_zero]
      exact h.live d hd term
    · obtain rfl := List.mem_singleton.mp hd
      have hid : (s.newDoc now req).id = id := hnew.id_eq.symm
      rw [hid, if_pos rfl, h.gone id (fun d hd heq => hold d hd heq.symm) term, zero_add]
      rfl
  · rw [hnew.rows_eq] at hrow
    have hne : id ≠ rowid := by
      rw [hnew.id_eq]
      exact hrow _ (List.mem_append_right _ (List.mem_singleton_self _))
    rw [hnew.fts_eq, postings_append, postings_insert, if_neg hne, add_zero]
    exact h.gone rowid (fun d hd => hrow d (List.mem_append_left _ hd)) term

/-- An insert leaves it overdrawn, if it was. -/
theorem Overdrawn.inserted {s s' : Store} {now id : ℤ} {req : PutRequest}
    (hnew : Inserted s now req s' id) (h : Overdrawn s) : Overdrawn s' := by
  obtain ⟨term, rowid, hneg, hle, hgone⟩ := h
  have hne : id ≠ rowid := by
    rw [hnew.id_eq]
    omega
  refine ⟨term, rowid, ?_, ?_, ?_⟩
  · rwa [hnew.fts_eq, postings_append, postings_insert, if_neg hne, add_zero]
  · rw [hnew.seq_eq]
    omega
  · intro d hd
    rw [hnew.rows_eq] at hd
    rcases List.mem_append.mp hd with hd | hd
    · exact hgone d hd
    · obtain rfl := List.mem_singleton.mp hd
      rw [show (s.newDoc now req).id = id from hnew.id_eq.symm]
      exact hne

/-! ## Deletes -/

/-- A delete removes the postings of its row twice. -/
theorem postings_removed (s : Store) (id : ℤ) (term : String) (rowid : ℤ) :
    postings (s.removed id).fts term rowid = postings s.fts term rowid +
      2 * postings ((s.docs.rows.filter fun d => d.id = id).map fun d =>
        .delete d.id d.title d.text) term rowid := by
  change postings (s.fts ++ _ ++ _) term rowid = _
  rw [postings_append, postings_append, two_mul, add_assoc]

/-- A removal leaves the postings of other rows. -/
theorem postings_removed_of_ne {s : Store} {id rowid : ℤ} (h : id ≠ rowid) (term : String) :
    postings (s.removed id).fts term rowid = postings s.fts term rowid := by
  rw [postings_removed, postings_map_delete_of_ne, mul_zero, add_zero]
  intro d hd heq
  obtain ⟨-, hid⟩ := List.mem_filter.mp hd
  exact h ((of_decide_eq_true hid).symm.trans heq)

/-- It leaves those of ids that no row has. -/
theorem postings_removed_of_gone {s : Store} {rowid : ℤ} (h : ∀ d ∈ s.docs.rows, d.id ≠ rowid)
    (id : ℤ) (term : String) :
    postings (s.removed id).fts term rowid = postings s.fts term rowid := by
  rw [postings_removed, postings_map_delete_of_ne, mul_zero, add_zero]
  exact fun d hd => h d (List.mem_of_mem_filter hd)

/-- It takes the tokens of its own row away twice. -/
theorem postings_removed_self {s : Store} {d : Doc} (hd : d ∈ s.docs.rows) (term : String) :
    postings (s.removed d.id).fts term d.id =
      postings s.fts term d.id - 2 * (tokensOf d.title d.text).count term := by
  have hone : postings [FtsCommand.delete d.id d.title d.text] term d.id =
      -((tokensOf d.title d.text).count term : ℤ) := by
    simp [postings, FtsCommand.net]
  rw [postings_removed, filter_id_eq hd, List.map_singleton, hone]
  ring

/-- Removing a row without tokens keeps the index exact. -/
theorem FtsExact.removed {s : Store} (h : FtsExact s) {id : ℤ} {r : Store × Bool}
    (hok : s.delete id = .ok r) (hcond : DeletesNoToken s (.delete id)) :
    FtsExact (s.removed id) := by
  refine ⟨fun d hd term => ?_, fun rowid hrow term => ?_⟩
  · obtain ⟨hd, hne⟩ := mem_removed_rows.mp hd
    rw [postings_removed_of_ne hne.symm]
    exact h.live d hd term
  · by_cases hlive : ∀ d ∈ s.docs.rows, d.id ≠ rowid
    · rw [postings_removed_of_gone hlive]
      exact h.gone rowid hlive term
    · -- the row that was deleted, which had no token
      push Not at hlive
      obtain ⟨d, hd, rfl⟩ := hlive
      have hid : d.id = id := by
        by_contra hne
        exact hrow d (mem_removed_rows.mpr ⟨hd, hne⟩) rfl
      subst hid
      have hspare := (delete_isOk_iff hd).mp ⟨r, hok⟩
      rw [postings_removed_self hd, h.live d hd, hcond d.id rfl d hd rfl hspare]
      rfl

theorem Overdrawn.removed {s : Store} (h : Overdrawn s) (id : ℤ) :
    Overdrawn (s.removed id) := by
  obtain ⟨term, rowid, hneg, hle, hgone⟩ := h
  refine ⟨term, rowid, ?_, hle, fun d hd => hgone d (mem_removed_rows.mp hd).1⟩
  rwa [postings_removed_of_gone hgone]

/-- The first delete of a document with a token overdraws the index. -/
theorem FtsExact.overdrawn_delete {s : Store} (h : FtsExact s) {op : Op}
    (hcond : ¬DeletesNoToken s op) : Overdrawn (s.apply op) := by
  rw [DeletesNoToken] at hcond
  push Not at hcond
  obtain ⟨id, rfl, d, hd, rfl, hspare, htokens⟩ := hcond
  obtain ⟨⟨s', found⟩, hok⟩ := (delete_isOk_iff hd).mpr hspare
  have happly : s.apply (.delete d.id) = s.removed d.id := by
    rw [Store.apply, hok]
    exact delete_ok hok
  rw [happly]
  obtain ⟨term, hterm⟩ := List.exists_mem_of_ne_nil _ htokens
  have hpos := List.count_pos_iff.mpr hterm
  refine ⟨term, d.id, ?_, s.docs.le_seq d hd, fun x hx => (mem_removed_rows.mp hx).2⟩
  rw [postings_removed_self hd, h.live d hd]
  omega

/-! ## Whole runs -/

/-- What one call preserves, if it deletes no token. -/
theorem FtsExact.apply {s : Store} {op : Op} (h : FtsExact s) (hcond : DeletesNoToken s op) :
    FtsExact (s.apply op) := by
  refine apply_invariant FtsExact.inserted ?_ h
  rintro id found rfl hok
  exact h.removed hok hcond

theorem Overdrawn.apply {s : Store} (h : Overdrawn s) (op : Op) : Overdrawn (s.apply op) :=
  apply_invariant Overdrawn.inserted (fun _ _ => h.removed _) h

/-- After a run of puts, batches and deletes the index is exact if and only if no document with a
token was deleted in the run. -/
theorem fullText_exact_iff (ops : List Op) :
    FtsExact (ops.foldl apply Store.empty) ↔
      Meets (fun s op => some (s.apply op)) DeletesNoToken Store.empty ops := by
  have hrun := run_total apply Store.empty ops
  have hexact := run_exact FtsExact Overdrawn
    (fun s op s' h (hcond : DeletesNoToken s op) heq => Option.some.inj heq ▸ h.apply hcond)
    (fun s op s' h hcond heq => Option.some.inj heq ▸ h.overdrawn_delete hcond)
    (fun s op s' h heq => Option.some.inj heq ▸ h.apply op) hrun FtsExact.empty
  rcases hexact with ⟨hmeets, hinv⟩ | ⟨hmeets, hbad⟩
  · exact iff_of_true hinv hmeets
  · exact iff_of_false (fun h => h.not_overdrawn hbad) hmeets

end Runs

/-- A put of a text alone. -/
def putText (text : String) : Op :=
  .put 0 { uri := none, title := none, text, meta_ := none, embedding := none }

/-- Three documents of one word each are put, and one of them is deleted. -/
def putAndDelete : List Op := [putText "rust", putText "zig", putText "lean", .delete 1]

/-- The delete went through, and it has removed the one posting twice. -/
theorem putAndDelete_overdrawn :
    let _ := Blake3.identity
    let _ := Tokenizer.blanks
    ((putAndDelete.foldl apply Store.empty).docs.rows.map Doc.id = [2, 3]) ∧
      ¬FtsExact (putAndDelete.foldl apply Store.empty) := by
  intro _ _
  refine ⟨by decide, fun h => ?_⟩
  have hnone := h.gone 1 (by decide) "rust"
  revert hnone
  decide

end Store

end SynapseMemory
