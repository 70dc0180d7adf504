import Mathlib

/-!
# Hash chains

Rows that each carry a hash and the hash of the row before. A list of rows is **linked** when every
hash is the one its row has after the previous hash, and every stored previous hash is the hash of
the row before (none for the first row).

The argument for tampering goes over the stored previous hashes alone. Where equal hashes come from
equal previous hashes, the hashes of a linked list are pairwise different (`Linked.hash_ne`), so a
previous hash names one row. A list of rows of the chain that is linked too must then begin with the
same row and go on with the same row after it: it is a prefix of the chain (`prefix_of_linked`), and
rows that were taken out of a chain were its last ones (`suffix_of_linked`).
-/

/-- What a chain reads of a row, and the hash a row has after a previous one. -/
structure HashChain (ρ δ : Type*) where
  prev : ρ → Option δ
  hash : ρ → δ
  link : Option δ → ρ → δ

namespace HashChain

variable {ρ δ : Type*} (C : HashChain ρ δ)

/-- The rows continue a chain whose last hash is given. -/
def Linked : Option δ → List ρ → Prop
  | _, [] => True
  | p, r :: rest => C.link p r = C.hash r ∧ C.prev r = p ∧ Linked (some (C.hash r)) rest

instance decidableLinked [DecidableEq δ] :
    (p : Option δ) → (rows : List ρ) → Decidable (C.Linked p rows)
  | _, [] => inferInstanceAs (Decidable True)
  | p, r :: rest =>
    have := decidableLinked (some (C.hash r)) rest
    inferInstanceAs (Decidable (C.link p r = C.hash r ∧ C.prev r = p ∧ C.Linked _ rest))

/-- The last hash after these rows. -/
def last : Option δ → List ρ → Option δ
  | p, [] => p
  | _, r :: rest => last (some (C.hash r)) rest

variable {C}

@[simp] theorem last_nil (p : Option δ) : C.last p [] = p := rfl

theorem last_append (p : Option δ) (a b : List ρ) : C.last p (a ++ b) = C.last (C.last p a) b := by
  induction a generalizing p with
  | nil => rfl
  | cons r rest ih => exact ih _

@[simp] theorem last_concat (p : Option δ) (rows : List ρ) (r : ρ) :
    C.last p (rows ++ [r]) = some (C.hash r) := by
  rw [last_append]
  rfl

theorem last_none (rows : List ρ) : C.last none rows = rows.getLast?.map C.hash := by
  induction rows using List.reverseRecOn with
  | nil => rfl
  | append_singleton rows r _ => rw [last_concat, List.getLast?_concat, Option.map_some]

theorem linked_append {p : Option δ} {a b : List ρ} :
    C.Linked p (a ++ b) ↔ C.Linked p a ∧ C.Linked (C.last p a) b := by
  induction a generalizing p with
  | nil => exact (true_and _).symm.to_iff
  | cons r rest ih =>
    rw [List.cons_append, Linked, Linked, ih, last]
    tauto

/-- A chain grows by rows that carry its last hash. -/
theorem linked_concat {p : Option δ} {rows : List ρ} {r : ρ} :
    C.Linked p (rows ++ [r]) ↔
      C.Linked p rows ∧ C.link (C.last p rows) r = C.hash r ∧ C.prev r = C.last p rows := by
  rw [linked_append, Linked, Linked, and_true]

/-- A change of the rows that the chain does not read. -/
theorem linked_map {f : ρ → ρ} (hprev : ∀ r, C.prev (f r) = C.prev r)
    (hhash : ∀ r, C.hash (f r) = C.hash r) (hlink : ∀ p r, C.link p (f r) = C.link p r)
    {p : Option δ} {rows : List ρ} : C.Linked p (rows.map f) ↔ C.Linked p rows := by
  induction rows generalizing p with
  | nil => exact Iff.rfl
  | cons r rest ih => rw [List.map_cons, Linked, Linked, hprev, hhash, hlink, ih]

/-- Every row of a chain has the hash it has after its own previous hash. -/
theorem Linked.link_prev {p : Option δ} {rows : List ρ} (h : C.Linked p rows) {r : ρ}
    (hr : r ∈ rows) : C.link (C.prev r) r = C.hash r := by
  obtain ⟨a, b, rfl⟩ := List.append_of_mem hr
  obtain ⟨hhash, hprev, -⟩ := (linked_append.mp h).2
  rw [hprev, hhash]

/-- The first row points to what was before. -/
theorem Linked.prev_head {p : Option δ} {rows : List ρ} (h : C.Linked p rows) {r : ρ}
    (hr : rows[0]? = some r) : C.prev r = p := by
  cases rows with
  | nil => cases hr
  | cons x rest =>
    obtain rfl := Option.some.inj hr
    exact h.2.1

/-- A row points to the one before it. -/
theorem Linked.prev_next {p : Option δ} {rows : List ρ} (h : C.Linked p rows) {i : ℕ} {r r' : ρ}
    (hr : rows[i]? = some r) (hr' : rows[i + 1]? = some r') : C.prev r' = some (C.hash r) := by
  induction rows generalizing p i with
  | nil => cases hr
  | cons x rest ih =>
    cases i with
    | zero =>
      obtain rfl := Option.some.inj hr
      exact h.2.2.prev_head hr'
    | succ i => exact ih h.2.2 hr hr'

/-- A previous hash is the hash of a row. -/
theorem Linked.prev_mem {p : Option δ} {rows : List ρ} (h : C.Linked p rows) {r : ρ}
    (hr : r ∈ rows) : C.prev r = p ∨ ∃ r' ∈ rows, C.prev r = some (C.hash r') := by
  obtain ⟨i, hi⟩ := List.mem_iff_getElem?.mp hr
  cases i with
  | zero => exact .inl (h.prev_head hi)
  | succ i =>
    have hlt : i < rows.length := (List.getElem?_eq_some_iff.mp hi).1.le
    exact .inr ⟨_, List.getElem_mem hlt, h.prev_next (List.getElem?_eq_getElem hlt) hi⟩

/-! ## Distinct hashes -/

section Distinct

variable {rows : List ρ}

/-- A hash tells what the previous hash was. -/
def Telling (C : HashChain ρ δ) (rows : List ρ) : Prop :=
  ∀ r ∈ rows, ∀ r' ∈ rows, C.hash r = C.hash r' → C.prev r = C.prev r'

/-- In a linked chain no hash comes twice. -/
theorem Linked.hash_ne (h : C.Linked none rows) (htell : C.Telling rows) {i j : ℕ} (hij : i < j)
    {r r' : ρ} (hr : rows[i]? = some r) (hr' : rows[j]? = some r') : C.hash r ≠ C.hash r' := by
  induction i generalizing j r r' with
  | zero =>
    intro heq
    obtain ⟨j, rfl⟩ := Nat.exists_eq_succ_of_ne_zero (Nat.ne_of_gt hij)
    have hj : j < rows.length := (List.getElem?_eq_some_iff.mp hr').1.le
    have hprev := htell r (List.mem_of_getElem? hr) r' (List.mem_of_getElem? hr') heq
    rw [h.prev_head hr, h.prev_next (List.getElem?_eq_getElem hj) hr'] at hprev
    cases hprev
  | succ i ih =>
    intro heq
    obtain ⟨j, rfl⟩ := Nat.exists_eq_succ_of_ne_zero (Nat.ne_of_gt (Nat.zero_lt_of_lt hij))
    have hi : i < rows.length := (List.getElem?_eq_some_iff.mp hr).1.le
    have hj : j < rows.length := (List.getElem?_eq_some_iff.mp hr').1.le
    have hprev := htell r (List.mem_of_getElem? hr) r' (List.mem_of_getElem? hr') heq
    rw [h.prev_next (List.getElem?_eq_getElem hi) hr,
      h.prev_next (List.getElem?_eq_getElem hj) hr'] at hprev
    exact ih (Nat.lt_of_succ_lt_succ hij) (List.getElem?_eq_getElem hi)
      (List.getElem?_eq_getElem hj) (Option.some.inj hprev)

/-- A row with the place of its predecessor is the row at the next place. -/
theorem Linked.next_eq (h : C.Linked none rows) (htell : C.Telling rows) {i : ℕ} {r x : ρ}
    (hr : rows[i]? = some r) (hx : x ∈ rows) (hprev : C.prev x = some (C.hash r)) :
    rows[i + 1]? = some x := by
  obtain ⟨j, hj⟩ := List.mem_iff_getElem?.mp hx
  cases j with
  | zero =>
    rw [h.prev_head hj] at hprev
    cases hprev
  | succ j =>
    have hlt : j < rows.length := (List.getElem?_eq_some_iff.mp hj).1.le
    rw [h.prev_next (List.getElem?_eq_getElem hlt) hj, Option.some_inj] at hprev
    have hij : i = j := by
      by_contra hne
      rcases Nat.lt_or_gt_of_ne hne with hlt' | hlt'
      · exact h.hash_ne htell hlt' hr (List.getElem?_eq_getElem hlt) hprev.symm
      · exact h.hash_ne htell hlt' (List.getElem?_eq_getElem hlt) hr hprev
    rw [hij, hj]

/-- **A linked list of rows of a chain is a prefix of the chain.** -/
theorem Linked.prefix_of_linked (h : C.Linked none rows) (htell : C.Telling rows)
    {rows' : List ρ} (hsub : rows' ⊆ rows) (h' : C.Linked none rows') : rows' <+: rows := by
  have hsame : ∀ (i : ℕ) (r : ρ), rows'[i]? = some r → rows[i]? = some r := by
    intro i
    induction i with
    | zero =>
      intro r hr
      have hmem := hsub (List.mem_of_getElem? hr)
      obtain ⟨j, hj⟩ := List.mem_iff_getElem?.mp hmem
      cases j with
      | zero => exact hj
      | succ j =>
        have hlt : j < rows.length := (List.getElem?_eq_some_iff.mp hj).1.le
        have hprev := h.prev_next (List.getElem?_eq_getElem hlt) hj
        rw [h'.prev_head hr] at hprev
        cases hprev
    | succ i ih =>
      intro r hr
      have hlt : i < rows'.length := (List.getElem?_eq_some_iff.mp hr).1.le
      have hbefore := List.getElem?_eq_getElem hlt
      exact h.next_eq htell (ih _ hbefore) (hsub (List.mem_of_getElem? hr))
        (h'.prev_next hbefore hr)
  refine List.prefix_iff_getElem?.mpr fun i hi => ?_
  exact hsame i _ (List.getElem?_eq_getElem hi)

/-- If what is left of a list is a prefix, then what was taken out is a suffix. -/
theorem suffix_of_prefix {p : ρ → Bool} {l : List ρ}
    (h : (l.filter fun x => !p x) <+: l) : l.filter p <:+ l := by
  obtain ⟨rest, hl⟩ := h
  have hkept : (l.filter fun x => !p x).filter p = [] := by
    rw [List.filter_filter]
    simp
  have hrest : rest.filter (fun x => !p x) = [] := by
    have hsplit := congrArg (List.filter fun x => !p x) hl
    rw [List.filter_append, List.filter_filter] at hsplit
    simpa using hsplit
  have hall : rest.filter p = rest := by
    rw [List.filter_eq_self]
    intro x hx
    simpa using List.filter_eq_nil_iff.mp hrest x hx
  have hout : l.filter p = rest := by
    rw [← hl, List.filter_append, hkept, hall, List.nil_append]
  exact ⟨_, by rw [hout, hl]⟩

/-- **Rows taken out of a chain that leave a chain behind were the last ones.** -/
theorem Linked.suffix_of_linked (h : C.Linked none rows) (htell : C.Telling rows) {p : ρ → Bool}
    (h' : C.Linked none (rows.filter fun r => !p r)) : rows.filter p <:+ rows :=
  suffix_of_prefix (h.prefix_of_linked htell (List.filter_subset_self _) h')

end Distinct

end HashChain
