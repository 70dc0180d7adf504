import Mathlib

/-!
# Runs

A maximal run of a list is a longest block of neighbours that have a property. A scan with one flag
counts them: a run begins at an element with the property if the one before it does not have it.

The number of runs of two lists together is the sum of their numbers, unless a run goes on across
the seam (`runs_append`), and a part of a list has no more of them than the list
(`runs_le_of_isInfix`).
-/

namespace SynapseMemory.Runs

variable {α : Type*} (p : α → Bool)

/-- The runs that begin in a list, where the flag says that the element before it is in one. -/
def runsFrom : Bool → List α → ℕ
  | _, [] => 0
  | inRun, a :: l => (if p a && !inRun then 1 else 0) + runsFrom (p a) l

/-- The number of maximal runs. -/
def runs (l : List α) : ℕ := runsFrom p false l

variable {p}

theorem runs_le_runsFrom_true (l : List α) : runs p l ≤ 1 + runsFrom p true l := by
  cases l with
  | nil => exact Nat.zero_le _
  | cons a l =>
    rw [runs, runsFrom, runsFrom]
    split <;> split <;> omega

/-- The flag after a list is the property of its last element. -/
theorem runsFrom_append (inRun : Bool) (l m : List α) :
    runsFrom p inRun (l ++ m) = runsFrom p inRun l + runsFrom p (l.getLast?.elim inRun p) m := by
  induction l generalizing inRun with
  | nil => simp [runsFrom]
  | cons a l ih =>
    have hlast : (a :: l).getLast?.elim inRun p = l.getLast?.elim (p a) p := by
      rw [List.getLast?_cons]
      cases l.getLast? <;> rfl
    rw [List.cons_append, runsFrom, runsFrom, ih, hlast, Nat.add_assoc]

/-- No run goes on from one list into the next. -/
def Seam (p : α → Bool) (l m : List α) : Prop :=
  ∀ a ∈ l.getLast?, ∀ b ∈ m.head?, p a = true → p b = false

/-- Where two lists meet in a seam, the runs of both count. -/
theorem runs_append {l m : List α} (h : Seam p l m) : runs p (l ++ m) = runs p l + runs p m := by
  rw [runs, runs, runs, runsFrom_append]
  cases hlast : l.getLast? with
  | none => rfl
  | some a =>
    cases m with
    | nil => rfl
    | cons b m =>
      have hflag : (p b && !p a) = (p b && !false) := by
        cases ha : p a with
        | false => rfl
        | true => rw [h a hlast b rfl ha, Bool.false_and, Bool.false_and]
      rw [Option.elim_some, runsFrom, hflag]
      rfl

/-- A longer list has at least as many runs. -/
theorem runs_le_append_right (l m : List α) : runs p l ≤ runs p (l ++ m) := by
  rw [runs, runs, runsFrom_append]
  exact Nat.le_add_right _ _

/-- So has one that is longer at its front. -/
theorem runs_le_append_left (l m : List α) : runs p m ≤ runs p (l ++ m) := by
  induction l with
  | nil => exact le_refl _
  | cons a l ih =>
    refine ih.trans ?_
    rw [List.cons_append, runs, runs, runsFrom]
    cases ha : p a with
    | false => exact Nat.le_add_left _ _
    | true => exact runs_le_runsFrom_true _

/-- A part of a list has no more runs. -/
theorem runs_le_of_isInfix {l m : List α} (h : l <:+: m) : runs p l ≤ runs p m := by
  obtain ⟨before, after, rfl⟩ := h
  exact (runs_le_append_left before l).trans (runs_le_append_right (before ++ l) after)

/-- The runs depend on which elements belong to them only. -/
theorem runs_congr {q : α → Bool} {l : List α} (h : ∀ a ∈ l, p a = q a) : runs p l = runs q l := by
  have hfrom : ∀ inRun, runsFrom p inRun l = runsFrom q inRun l := by
    induction l with
    | nil => exact fun _ => rfl
    | cons a l ih =>
      intro inRun
      rw [runsFrom, runsFrom, h a List.mem_cons_self,
        ih fun b hb => h b (List.mem_cons_of_mem a hb)]
  exact hfrom false

theorem runs_eq_zero {l : List α} (h : ∀ a ∈ l, p a = false) : runs p l = 0 := by
  induction l with
  | nil => rfl
  | cons a l ih =>
    rw [runs, runsFrom, h a List.mem_cons_self, Bool.false_and]
    exact (Nat.zero_add _).trans (ih fun b hb => h b (List.mem_cons_of_mem a hb))

theorem runs_eq_one {l : List α} (hne : l ≠ []) (h : ∀ a ∈ l, p a = true) : runs p l = 1 := by
  have hgoing : ∀ l : List α, (∀ a ∈ l, p a = true) → runsFrom p true l = 0 := by
    intro l h
    induction l with
    | nil => rfl
    | cons a l ih =>
      rw [runsFrom, h a List.mem_cons_self]
      exact (Nat.zero_add _).trans (ih fun b hb => h b (List.mem_cons_of_mem a hb))
  obtain ⟨a, l, rfl⟩ := List.exists_cons_of_ne_nil hne
  rw [runs, runsFrom, h a List.mem_cons_self, hgoing l fun b hb => h b (List.mem_cons_of_mem a hb)]
  rfl

end SynapseMemory.Runs
