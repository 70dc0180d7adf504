import Mathlib

/-!
# Tables with an ascending id and two unique columns

A table is its rows in the order of their ids. Ids are given out in ascending order from one, and a
deleted one is not given out again. One column is unique on every row (the **key**), a second one is
unique where it is not null (the **alternate**).

The constraints are fields of the table, so an insert needs a row that keeps them. What the rest of
a development uses of a table is membership: `mem_insert`, `mem_erase` and `mem_modify` say what the
rows are after each operation, and `eq_of_id`, `eq_of_key` and `eq_of_alt` that a row is determined
by each of its unique columns.
-/

/-- The columns of a row that carry a constraint. -/
structure Schema (ρ κ μ : Type*) where
  id : ρ → ℤ
  key : ρ → κ
  alt : ρ → Option μ

/-- The rows of a table, and the last id that was given out. -/
structure Table {ρ κ μ : Type*} (S : Schema ρ κ μ) where
  rows : List ρ
  seq : ℤ
  seq_nonneg : 0 ≤ seq
  sorted : rows.Pairwise fun a b => S.id a < S.id b
  id_pos : ∀ r ∈ rows, 0 < S.id r
  le_seq : ∀ r ∈ rows, S.id r ≤ seq
  key_nodup : (rows.map S.key).Nodup
  alt_nodup : (rows.filterMap S.alt).Nodup

namespace Table

variable {ρ κ μ : Type*} {S : Schema ρ κ μ}

/-- A table without rows. -/
def empty : Table S where
  rows := []
  seq := 0
  seq_nonneg := le_refl 0
  sorted := List.Pairwise.nil
  id_pos := by simp
  le_seq := by simp
  key_nodup := List.nodup_nil
  alt_nodup := List.nodup_nil

/-- A search finds the one row with a property. -/
theorem find?_eq_some_of_unique {rows : List ρ} {p : ρ → Bool}
    (hunique : ∀ a ∈ rows, ∀ b ∈ rows, p a = true → p b = true → a = b) {r : ρ} :
    rows.find? p = some r ↔ r ∈ rows ∧ p r = true := by
  refine ⟨fun h => ⟨List.mem_of_find?_eq_some h, List.find?_some h⟩, ?_⟩
  rintro ⟨hr, hp⟩
  cases h : rows.find? p with
  | none => exact absurd hp (List.find?_eq_none.mp h r hr)
  | some x => rw [hunique x (List.mem_of_find?_eq_some h) r hr (List.find?_some h) hp]

/-! ## Rows are determined by their unique columns -/

/-- No id is there twice. -/
theorem id_nodup (t : Table S) : (t.rows.map S.id).Nodup :=
  List.pairwise_map.mpr (t.sorted.imp fun h => ne_of_lt h)

/-- A row is determined by its id. -/
theorem eq_of_id (t : Table S) {a b : ρ} (ha : a ∈ t.rows) (hb : b ∈ t.rows)
    (heq : S.id a = S.id b) : a = b :=
  List.inj_on_of_nodup_map t.id_nodup ha hb heq

/-- It is determined by its key. -/
theorem eq_of_key (t : Table S) {a b : ρ} (ha : a ∈ t.rows) (hb : b ∈ t.rows)
    (heq : S.key a = S.key b) : a = b :=
  List.inj_on_of_nodup_map t.key_nodup ha hb heq

/-- It is determined by its other key, if it has one. -/
theorem eq_of_alt (t : Table S) {a b : ρ} (ha : a ∈ t.rows) (hb : b ∈ t.rows) {m : μ}
    (ham : S.alt a = some m) (hbm : S.alt b = some m) : a = b := by
  by_contra hne
  have hdistinct := List.pairwise_filterMap.mp t.alt_nodup
  have hsymm : Std.Symm fun x y : ρ => ∀ m, S.alt x = some m → ∀ m', S.alt y = some m' → m ≠ m' :=
    ⟨fun x y h m hm m' hm' => (h m' hm' m hm).symm⟩
  exact hdistinct.forall ha hb hne m ham m hbm rfl

/-- Tables with the same rows and the same last id. -/
theorem eq_of_rows {t t' : Table S} (hrows : t.rows = t'.rows) (hseq : t.seq = t'.seq) :
    t = t' := by
  cases t
  cases t'
  cases hrows
  cases hseq
  rfl

/-- What a filter keeps of two tables is the same if it is in both of them. -/
theorem filter_rows_congr {t t' : Table S} {p : ρ → Bool}
    (hsub : ∀ r ∈ t.rows, p r = true → r ∈ t'.rows)
    (hsub' : ∀ r ∈ t'.rows, p r = true → r ∈ t.rows) : t.rows.filter p = t'.rows.filter p := by
  have hsorted : ∀ u : Table S, (u.rows.filter p).Pairwise fun a b => S.id a < S.id b :=
    fun u => u.sorted.filter p
  have hnodup : ∀ u : Table S, (u.rows.filter p).Nodup :=
    fun u => (hsorted u).imp fun hlt heq => hlt.ne (congrArg S.id heq)
  have hperm : (t.rows.filter p).Perm (t'.rows.filter p) := by
    refine (List.perm_ext_iff_of_nodup (hnodup t) (hnodup t')).mpr fun r => ?_
    rw [List.mem_filter, List.mem_filter]
    exact and_congr_left fun hp => ⟨fun hr => hsub r hr hp, fun hr => hsub' r hr hp⟩
  exact hperm.eq_of_pairwise (fun _ _ _ _ hlt hgt => absurd hgt (lt_asymm hlt)) (hsorted t)
    (hsorted t')

section Lookup

variable [DecidableEq κ]

/-- The row with a key. -/
def byKey (t : Table S) (k : κ) : Option ρ := t.rows.find? fun r => S.key r = k

/-- Some row has this value in the alternate column. -/
def Taken (t : Table S) (a : Option μ) : Prop := a ≠ none ∧ ∃ r ∈ t.rows, S.alt r = a

instance [DecidableEq μ] (t : Table S) (a : Option μ) : Decidable (t.Taken a) :=
  inferInstanceAs (Decidable (a ≠ none ∧ ∃ r ∈ t.rows, S.alt r = a))

/-- The row of a key. -/
theorem byKey_eq_some (t : Table S) {k : κ} {r : ρ} :
    t.byKey k = some r ↔ r ∈ t.rows ∧ S.key r = k := by
  rw [byKey, find?_eq_some_of_unique]
  · simp
  · intro a ha b hb hka hkb
    exact t.eq_of_key ha hb ((of_decide_eq_true hka).trans (of_decide_eq_true hkb).symm)

/-- A key without a row. -/
theorem byKey_eq_none (t : Table S) {k : κ} :
    t.byKey k = none ↔ ∀ r ∈ t.rows, S.key r ≠ k := by
  rw [byKey, List.find?_eq_none]
  simp

end Lookup

/-! ## Inserting -/

/-- Append a row with the next id. -/
def insert (t : Table S) (r : ρ) (hid : S.id r = t.seq + 1)
    (hkey : ∀ x ∈ t.rows, S.key x ≠ S.key r)
    (halt : ∀ x ∈ t.rows, ∀ a, S.alt x = some a → S.alt r ≠ some a) : Table S where
  rows := t.rows ++ [r]
  seq := t.seq + 1
  seq_nonneg := by
    have := t.seq_nonneg
    omega
  sorted := by
    refine List.pairwise_append.mpr ⟨t.sorted, List.pairwise_singleton _ _, ?_⟩
    intro a ha b hb
    obtain rfl := List.mem_singleton.mp hb
    rw [hid]
    exact Int.lt_add_one_of_le (t.le_seq a ha)
  id_pos := by
    intro x hx
    rcases List.mem_append.mp hx with hx | hx
    · exact t.id_pos x hx
    · obtain rfl := List.mem_singleton.mp hx
      have := t.seq_nonneg
      omega
  le_seq := by
    intro x hx
    rcases List.mem_append.mp hx with hx | hx
    · exact (t.le_seq x hx).trans (Int.le_of_lt (Int.lt_succ t.seq))
    · obtain rfl := List.mem_singleton.mp hx
      exact hid.le
  key_nodup := by
    rw [List.map_append]
    refine t.key_nodup.append (List.nodup_singleton _) ?_
    intro k hk hnew
    obtain ⟨x, hx, rfl⟩ := List.mem_map.mp hk
    exact hkey x hx (List.mem_singleton.mp hnew)
  alt_nodup := by
    rw [List.filterMap_append]
    refine t.alt_nodup.append ?_ ?_
    · cases h : S.alt r with
      | none => simp [h]
      | some a => simp [h]
    · intro a ha hnew
      obtain ⟨x, hx, hxa⟩ := List.mem_filterMap.mp ha
      obtain ⟨y, hy, hya⟩ := List.mem_filterMap.mp hnew
      obtain rfl := List.mem_singleton.mp hy
      exact halt x hx a hxa hya

section Insert

variable {t : Table S} {r : ρ} {hid : S.id r = t.seq + 1}
  {hkey : ∀ x ∈ t.rows, S.key x ≠ S.key r}
  {halt : ∀ x ∈ t.rows, ∀ a, S.alt x = some a → S.alt r ≠ some a}

@[simp] theorem insert_rows : (t.insert r hid hkey halt).rows = t.rows ++ [r] := rfl

@[simp] theorem insert_seq : (t.insert r hid hkey halt).seq = t.seq + 1 := rfl

end Insert

/-- Use up an id without a row. -/
def skip (t : Table S) : Table S :=
  { t with
    seq := t.seq + 1
    seq_nonneg := t.seq_nonneg.trans (Int.le_add_one le_rfl)
    le_seq := fun r hr => (t.le_seq r hr).trans (Int.le_add_one le_rfl) }

@[simp] theorem skip_rows (t : Table S) : t.skip.rows = t.rows := rfl

@[simp] theorem skip_seq (t : Table S) : t.skip.seq = t.seq + 1 := rfl

/-! ## Deleting -/

/-- Delete the row with an id. -/
def erase (t : Table S) (i : ℤ) : Table S where
  rows := t.rows.filter fun r => S.id r ≠ i
  seq := t.seq
  seq_nonneg := t.seq_nonneg
  sorted := t.sorted.filter _
  id_pos := fun r hr => t.id_pos r (List.mem_of_mem_filter hr)
  le_seq := fun r hr => t.le_seq r (List.mem_of_mem_filter hr)
  key_nodup := t.key_nodup.sublist (List.filter_sublist.map _)
  alt_nodup := t.alt_nodup.sublist (List.filter_sublist.filterMap _)

@[simp] theorem erase_seq (t : Table S) (i : ℤ) : (t.erase i).seq = t.seq := rfl

/-- The rows after one was erased. -/
theorem mem_erase {t : Table S} {i : ℤ} {r : ρ} :
    r ∈ (t.erase i).rows ↔ r ∈ t.rows ∧ S.id r ≠ i := by
  rw [erase, List.mem_filter, decide_eq_true_eq]

/-- Keep the rows with a property. -/
def filter (t : Table S) (p : ρ → Bool) : Table S where
  rows := t.rows.filter p
  seq := t.seq
  seq_nonneg := t.seq_nonneg
  sorted := t.sorted.filter p
  id_pos := fun r hr => t.id_pos r (List.mem_of_mem_filter hr)
  le_seq := fun r hr => t.le_seq r (List.mem_of_mem_filter hr)
  key_nodup := t.key_nodup.sublist (List.filter_sublist.map _)
  alt_nodup := t.alt_nodup.sublist (List.filter_sublist.filterMap _)

@[simp] theorem filter_seq (t : Table S) (p : ρ → Bool) : (t.filter p).seq = t.seq := rfl

@[simp] theorem mem_filter {t : Table S} {p : ρ → Bool} {r : ρ} :
    r ∈ (t.filter p).rows ↔ r ∈ t.rows ∧ p r = true :=
  List.mem_filter

/-! ## Updating -/

/-- Rewrite the columns without a constraint. -/
def modify (t : Table S) (f : ρ → ρ) (hid : ∀ r, S.id (f r) = S.id r)
    (hkey : ∀ r, S.key (f r) = S.key r) (halt : ∀ r, S.alt (f r) = S.alt r) : Table S where
  rows := t.rows.map f
  seq := t.seq
  seq_nonneg := t.seq_nonneg
  sorted := by
    refine List.pairwise_map.mpr (t.sorted.imp ?_)
    intro a b h
    rwa [hid, hid]
  id_pos := by
    intro r hr
    obtain ⟨x, hx, rfl⟩ := List.mem_map.mp hr
    rw [hid]
    exact t.id_pos x hx
  le_seq := by
    intro r hr
    obtain ⟨x, hx, rfl⟩ := List.mem_map.mp hr
    rw [hid]
    exact t.le_seq x hx
  key_nodup := by
    rw [List.map_map, show S.key ∘ f = S.key from funext hkey]
    exact t.key_nodup
  alt_nodup := by
    rw [List.filterMap_map, show S.alt ∘ f = S.alt from funext halt]
    exact t.alt_nodup

/-- Rewrite any columns but the ids, if the other two stay unique. -/
def rewrite (t : Table S) (f : ρ → ρ) (hid : ∀ r, S.id (f r) = S.id r)
    (hkey : ((t.rows.map f).map S.key).Nodup) (halt : ((t.rows.map f).filterMap S.alt).Nodup) :
    Table S where
  rows := t.rows.map f
  seq := t.seq
  seq_nonneg := t.seq_nonneg
  sorted := by
    refine List.pairwise_map.mpr (t.sorted.imp ?_)
    intro a b h
    rwa [hid, hid]
  id_pos := by
    intro r hr
    obtain ⟨x, hx, rfl⟩ := List.mem_map.mp hr
    rw [hid]
    exact t.id_pos x hx
  le_seq := by
    intro r hr
    obtain ⟨x, hx, rfl⟩ := List.mem_map.mp hr
    rw [hid]
    exact t.le_seq x hx
  key_nodup := hkey
  alt_nodup := halt

end Table
