import Mathlib

/-!
# Following pointers to their end

The look-up of an item fails, ends the chain, or names the next item. The walk from an item follows
the pointers and keeps the items it has visited. It fails where a look-up fails, and where it comes
to an item for the second time.

Only finitely many items have a look-up that succeeds, so the walk ends (`walk_ends`). A walk that
ends in a failure has met a failed look-up or a cycle (`walk_eq_error`). An item is **grounded**
when its pointers lead to an end. From a grounded item neither is met, so the walk succeeds exactly
from the grounded items (`walk_eq_ok`).
-/

namespace PointerWalk

variable {α ε : Type*} (next : α → Except ε (Option α))

/-- The look-up of an item names the next one. -/
def Points (a b : α) : Prop := next a = .ok (some b)

/-- The pointers from an item lead to an end. -/
inductive Grounded : α → Prop
  | last {a : α} : next a = .ok none → Grounded a
  | step {a b : α} : Points next a b → Grounded b → Grounded a

variable {next}

open Relation

/-! ## Grounded items -/

theorem Grounded.of_points {a b : α} (h : Grounded next a) (hpoints : Points next a b) :
    Grounded next b := by
  cases h with
  | last hlast => cases hlast.symm.trans hpoints
  | step hstep hb =>
    cases hstep.symm.trans hpoints
    exact hb

theorem Grounded.of_reaches {a b : α} (h : Grounded next a)
    (hreach : ReflTransGen (Points next) a b) : Grounded next b := by
  induction hreach with
  | refl => exact h
  | tail _ hpoints ih => exact ih.of_points hpoints

theorem Grounded.lookup {a : α} (h : Grounded next a) (e : ε) : next a ≠ .error e := by
  intro he
  cases h with
  | last hlast => cases hlast.symm.trans he
  | step hstep _ => cases hstep.symm.trans he

/-- A grounded item is on no cycle. -/
theorem Grounded.acyclic {a : α} (h : Grounded next a) : ¬TransGen (Points next) a a := by
  induction h with
  | last hlast =>
    intro hcycle
    obtain ⟨c, hc, -⟩ := TransGen.head'_iff.mp hcycle
    cases hlast.symm.trans hc
  | @step a b hstep _ ih =>
    intro hcycle
    obtain ⟨c, hc, hca⟩ := TransGen.head'_iff.mp hcycle
    cases hstep.symm.trans hc
    -- the cycle goes through the next item too
    exact ih (TransGen.tail' hca hstep)

/-- An item stays grounded when the pointers change, if on its way each step is still there or leads
to an item that is grounded now. -/
theorem Grounded.transfer {next' : α → Except ε (Option α)} (P : α → Prop)
    (hlast : ∀ a, P a → next a = .ok none → Grounded next' a)
    (hstep : ∀ a b, P a → Points next a b →
      Grounded next' a ∨ (Points next' a b ∧ P b))
    {a : α} (h : Grounded next a) (ha : P a) : Grounded next' a := by
  induction h with
  | last hnone => exact hlast _ ha hnone
  | step hpoints _ ih =>
    rcases hstep _ _ ha hpoints with hnow | ⟨hstill, hb⟩
    · exact hnow
    · exact .step hstill (ih hb)

/-! ## The walk -/

section Walk

variable [DecidableEq α] (next) (cycle : α → ε)

/-- The walk from an item, with the items visited so far; none if the fuel runs out. -/
def walk : ℕ → List α → α → Option (Except ε Unit)
  | 0, _, _ => none
  | fuel + 1, visited, a =>
    if a ∈ visited then some (.error (cycle a))
    else
      match next a with
      | .error e => some (.error e)
      | .ok none => some (.ok ())
      | .ok (some b) => walk fuel (a :: visited) b

variable {next cycle}

/-- One item of the walk. -/
theorem walk_cases {fuel : ℕ} {visited : List α} {a : α} {r : Except ε Unit}
    (h : walk next cycle (fuel + 1) visited a = some r) :
    (a ∈ visited ∧ r = .error (cycle a)) ∨
      (∃ e, next a = .error e ∧ r = .error e) ∨
      (next a = .ok none ∧ r = .ok ()) ∨
      ∃ b, Points next a b ∧ walk next cycle fuel (a :: visited) b = some r := by
  rw [walk] at h
  split at h
  next hvisited => exact .inl ⟨hvisited, (Option.some.inj h).symm⟩
  next =>
    split at h
    next e he => exact .inr (.inl ⟨e, he, (Option.some.inj h).symm⟩)
    next hlast => exact .inr (.inr (.inl ⟨hlast, (Option.some.inj h).symm⟩))
    next b hb => exact .inr (.inr (.inr ⟨b, hb, h⟩))

/-- **The walk ends.** The items it has visited are different items of a finite domain. -/
theorem walk_ends {domain : List α} (hdomain : ∀ a p, next a = .ok p → a ∈ domain) {fuel : ℕ}
    {visited : List α} (hnodup : visited.Nodup) (hsub : visited ⊆ domain)
    (hfuel : domain.length < fuel + visited.length) (a : α) :
    ∃ r, walk next cycle fuel visited a = some r := by
  induction fuel generalizing visited a with
  | zero =>
    have hle : visited.length ≤ domain.length := (hnodup.subperm hsub).length_le
    omega
  | succ fuel ih =>
    rw [walk]
    by_cases hvisited : a ∈ visited
    · exact ⟨_, if_pos hvisited⟩
    · rw [if_neg hvisited]
      cases hnext : next a with
      | error e => exact ⟨_, rfl⟩
      | ok p =>
        cases p with
        | none => exact ⟨_, rfl⟩
        | some b =>
          refine ih (List.nodup_cons.mpr ⟨hvisited, hnodup⟩) ?_ ?_ b
          · exact List.cons_subset.mpr ⟨hdomain a _ hnext, hsub⟩
          · rw [List.length_cons]
            omega

theorem grounded_of_walk {fuel : ℕ} {visited : List α} {a : α}
    (h : walk next cycle fuel visited a = some (.ok ())) : Grounded next a := by
  induction fuel generalizing visited a with
  | zero => cases h
  | succ fuel ih =>
    obtain ⟨-, hr⟩ | ⟨e, -, hr⟩ | ⟨hlast, -⟩ | ⟨b, hb, hrest⟩ := walk_cases h
    · cases hr
    · cases hr
    · exact .last hlast
    · exact .step hb (ih hrest)

/-- A walk that fails has met a failed look-up or a cycle. -/
theorem walk_eq_error {fuel : ℕ} {visited : List α} {a : α} {e : ε}
    (h : walk next cycle fuel visited a = some (.error e))
    (hvisited : ∀ v ∈ visited, TransGen (Points next) v a) :
    ∃ b, ReflTransGen (Points next) a b ∧ (next b = .error e ∨ TransGen (Points next) b b) := by
  induction fuel generalizing visited a with
  | zero => cases h
  | succ fuel ih =>
    obtain ⟨hmem, -⟩ | ⟨e', he, hr⟩ | ⟨-, hr⟩ | ⟨b, hb, hrest⟩ := walk_cases h
    · exact ⟨a, .refl, .inr (hvisited a hmem)⟩
    · cases hr
      exact ⟨a, .refl, .inl he⟩
    · cases hr
    · obtain ⟨c, hc, hfail⟩ := ih hrest fun v hv => by
        rcases List.mem_cons.mp hv with rfl | hv
        · exact .single hb
        · exact (hvisited v hv).tail hb
      exact ⟨c, .head hb hc, hfail⟩

section Domain

variable {domain : List α} (hdomain : ∀ a p, next a = .ok p → a ∈ domain)
include hdomain

/-- The walk with enough fuel ends. -/
theorem walk_total (a : α) : ∃ r, walk next cycle (domain.length + 1) [] a = some r :=
  walk_ends hdomain List.nodup_nil (List.nil_subset domain) (by simp) a

/-- **The walk succeeds exactly from the grounded items.** -/
theorem walk_eq_ok {a : α} :
    walk next cycle (domain.length + 1) [] a = some (.ok ()) ↔ Grounded next a := by
  refine ⟨grounded_of_walk, fun h => ?_⟩
  obtain ⟨r, hr⟩ : ∃ r, walk next cycle (domain.length + 1) [] a = some r :=
    walk_total hdomain a
  cases r with
  | ok u => exact hr
  | error e =>
    obtain ⟨b, hb, he | hcycle⟩ := walk_eq_error hr (by simp)
    · exact absurd he ((h.of_reaches hb).lookup e)
    · exact absurd hcycle (h.of_reaches hb).acyclic

end Domain

/-- An item from which no failed look-up and no cycle is reached is grounded. -/
theorem grounded_of_reaches {domain : List α} (hdomain : ∀ a p, next a = .ok p → a ∈ domain)
    (cycle : α → ε) {a : α}
    (hlookup : ∀ b, ReflTransGen (Points next) a b → ∀ e, next b ≠ .error e)
    (hacyclic : ∀ b, ReflTransGen (Points next) a b → ¬TransGen (Points next) b b) :
    Grounded next a := by
  obtain ⟨r, hr⟩ : ∃ r, walk next cycle (domain.length + 1) [] a = some r :=
    walk_total hdomain a
  cases r with
  | ok u => exact grounded_of_walk hr
  | error e =>
    obtain ⟨b, hb, he | hcycle⟩ := walk_eq_error hr (by simp)
    · exact absurd he (hlookup b hb e)
    · exact absurd hcycle (hacyclic b hb)

end Walk

end PointerWalk
