import Mathlib

/-!
# Maps that accumulate

A map from keys to values, as its entries in some order. `modify` is what `map.entry(k)` is used
for: it changes the value of a key, or makes an entry for it. The keys are then those that were
there and this one. `add` is `*map.entry(k).or_insert(0) += x`, so the sum of all values grows by
what is added.

The entries of a hash map come in any order (`Shuffle`). Loops over them may fail; one whose steps
keep an invariant does not (`Option.foldlM_invariant`).
-/

/-- An order in which the entries of a hash map come. -/
structure Shuffle (α : Type*) where
  order : List α → List α
  perm : ∀ l, (order l).Perm l

/-- The entries as they are. -/
def Shuffle.same (α : Type*) : Shuffle α := ⟨fun l => l, List.Perm.refl⟩

namespace Accumulator

variable {κ M : Type*}

/-- The keys of the entries, in their order. -/
def keys (m : List (κ × M)) : List κ := m.map Prod.fst

/-- The sum of all values. -/
def total [AddMonoid M] (m : List (κ × M)) : M := (m.map Prod.snd).sum

/-- The sum does not depend on the order of the entries. -/
theorem total_perm [AddCommMonoid M] {m m' : List (κ × M)} (h : m.Perm m') : total m = total m' :=
  (h.map Prod.snd).sum_eq

theorem total_cons [AddMonoid M] (k : κ) (y : M) (m : List (κ × M)) :
    total ((k, y) :: m) = y + total m :=
  List.sum_cons

/-- What is added to all values is in the sum for each of them. -/
theorem total_map_add [AddCommMonoid M] (m : List (κ × M)) (x : M) :
    total (m.map fun p => (p.1, p.2 + x)) = total m + m.length • x := by
  induction m with
  | nil => simp [total]
  | cons p m ih =>
    rw [List.map_cons, total_cons, total_cons, ih, List.length_cons, succ_nsmul']
    exact add_add_add_comm _ _ _ _

variable [DecidableEq κ]

/-- `map.get(k)` -/
def get (m : List (κ × M)) (k : κ) : Option M := (m.find? (·.1 = k)).map Prod.snd

/-- The value of a key is changed. -/
def modify (f : Option M → M) : List (κ × M) → κ → List (κ × M)
  | [], k => [(k, f none)]
  | (k', y) :: m, k => if k' = k then (k', f (some y)) :: m else (k', y) :: modify f m k

/-- `*map.entry(k).or_insert(0) += x` -/
def add [AddMonoid M] (m : List (κ × M)) (k : κ) (x : M) : List (κ × M) :=
  modify (fun y => y.getD 0 + x) m k

variable {f : Option M → M} {m : List (κ × M)} {k : κ}

/-- A key that is there gets no second entry. -/
theorem keys_modify_of_mem (h : k ∈ keys m) : keys (modify f m k) = keys m := by
  induction m with
  | nil => cases h
  | cons p m ih =>
    rw [modify]
    split
    next => rfl
    next hne =>
      have hk : k ∈ keys m := (List.mem_cons.mp h).resolve_left fun heq => hne heq.symm
      exact congrArg (p.1 :: ·) (ih hk)

/-- A new key comes last. -/
theorem keys_modify_of_not_mem (h : k ∉ keys m) : keys (modify f m k) = keys m ++ [k] := by
  induction m with
  | nil => rfl
  | cons p m ih =>
    obtain ⟨hne, hk⟩ := not_or.mp (List.mem_cons.not.mp h)
    rw [modify, if_neg fun heq => hne heq.symm]
    exact congrArg (p.1 :: ·) (ih hk)

/-- No key gets two entries. -/
theorem keys_modify_nodup (h : (keys m).Nodup) : (keys (modify f m k)).Nodup := by
  by_cases hk : k ∈ keys m
  · rwa [keys_modify_of_mem hk]
  · rw [keys_modify_of_not_mem hk, ← List.concat_eq_append]
    exact h.concat hk

theorem modify_ne_nil (m : List (κ × M)) (k : κ) : modify f m k ≠ [] := by
  cases m with
  | nil => exact List.cons_ne_nil _ _
  | cons p m =>
    rw [modify]
    split <;> exact List.cons_ne_nil _ _

/-- Every entry keeps a property that the change keeps. -/
theorem forall_mem_modify {P : κ → M → Prop} (hnone : P k (f none))
    (hsome : ∀ y, P k y → P k (f (some y))) (h : ∀ p ∈ m, P p.1 p.2) :
    ∀ p ∈ modify f m k, P p.1 p.2 := by
  induction m with
  | nil => exact List.forall_mem_singleton.mpr hnone
  | cons p m ih =>
    obtain ⟨hp, hm⟩ := List.forall_mem_cons.mp h
    rw [modify]
    split
    next heq =>
      subst heq
      exact List.forall_mem_cons.mpr ⟨hsome _ hp, hm⟩
    next => exact List.forall_mem_cons.mpr ⟨hp, ih hm⟩

/-- **What is added is in the sum.** -/
theorem total_add [AddCommMonoid M] (m : List (κ × M)) (k : κ) (x : M) :
    total (add m k x) = total m + x := by
  induction m with
  | nil => simp [add, modify, total]
  | cons p m ih =>
    rw [add, modify]
    split
    next => rw [total_cons, total_cons, Option.getD_some, add_right_comm]
    next => rw [total_cons, total_cons, ← add, ih, add_assoc]

end Accumulator

namespace Option

/-! ## Loops that can fail -/

variable {σ α : Type*} {f : σ → α → Option σ}

/-- A loop whose steps keep an invariant, and do not fail while it holds. -/
theorem foldlM_invariant {P : σ → Prop} {l : List α}
    (hstep : ∀ a ∈ l, ∀ s, P s → ∃ s', f s a = some s' ∧ P s') {s : σ} (h : P s) :
    ∃ s', l.foldlM f s = some s' ∧ P s' := by
  induction l generalizing s with
  | nil => exact ⟨s, rfl, h⟩
  | cons a l ih =>
    obtain ⟨ha, hl⟩ := List.forall_mem_cons.mp hstep
    obtain ⟨s', hs', hP⟩ := ha s h
    obtain ⟨s'', hs'', hP'⟩ := ih hl hP
    exact ⟨s'', by rw [List.foldlM_cons, hs']; exact hs'', hP'⟩

theorem mapM_congr {β : Type*} {g h : α → Option β} {l : List α} (heq : ∀ a ∈ l, g a = h a) :
    l.mapM g = l.mapM h := by
  induction l with
  | nil => rfl
  | cons a l ih =>
    obtain ⟨ha, hl⟩ := List.forall_mem_cons.mp heq
    rw [List.mapM_cons, List.mapM_cons, ha, ih hl]

theorem mapM_eq_some {β : Type*} {g : α → Option β} {h : α → β} {l : List α}
    (heq : ∀ a ∈ l, g a = some (h a)) : l.mapM g = some (l.map h) := by
  rw [mapM_congr heq]
  exact List.mapM_pure

/-- A loop fails that has a step which always fails. -/
theorem foldlM_eq_none {l : List α} {a : α} (ha : a ∈ l) (hfail : ∀ s, f s a = none) (s : σ) :
    l.foldlM f s = none := by
  induction l generalizing s with
  | nil => cases ha
  | cons b l ih =>
    rw [List.foldlM_cons]
    rcases List.mem_cons.mp ha with rfl | hl
    · rw [hfail]
      rfl
    · cases f s b with
      | none => rfl
      | some s' => exact ih hl s'

end Option
