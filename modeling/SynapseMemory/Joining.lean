import Mathlib

/-!
# Joining a list of parts

Two ways to make one string of a list of strings, and what is lost by them.

Parts that just follow each other lose their borders: two lists of as many parts join to the same
string exactly if one can be recut into the other, moving elements over the borders between
neighbouring parts one at a time (`recut_iff`).

Parts with a separator between them lose which of the separators is one: two lists join to the same
string exactly if their parts, cut at the separators that are in them, are the same pieces one after
the other (`intercalate_eq_iff`). Parts without the separator are their own pieces.
-/

namespace Joining

variable {α : Type*}

/-! ## Without a separator -/

/-- The last element of a part moves to the front of the next one. -/
inductive Shift : List (List α) → List (List α) → Prop
  | mk (before : List (List α)) (p : List α) (x : α) (q : List α) (after : List (List α)) :
    Shift (before ++ (p ++ [x]) :: q :: after) (before ++ p :: (x :: q) :: after)

/-- Elements move over the borders, forth and back. -/
def Recut : List (List α) → List (List α) → Prop := Relation.EqvGen Shift

theorem Recut.refl (ps : List (List α)) : Recut ps ps := Relation.EqvGen.refl ps

theorem Recut.symm {ps qs : List (List α)} (h : Recut ps qs) : Recut qs ps :=
  Relation.EqvGen.symm _ _ h

theorem Recut.trans {ps qs rs : List (List α)} (h : Recut ps qs) (h' : Recut qs rs) :
    Recut ps rs :=
  Relation.EqvGen.trans _ _ _ h h'

theorem Recut.flatten_eq {ps qs : List (List α)} (h : Recut ps qs) : ps.flatten = qs.flatten := by
  induction h with
  | rel _ _ h =>
    obtain ⟨before, p, x, q, after⟩ := h
    simp
  | refl => rfl
  | symm _ _ _ ih => exact ih.symm
  | trans _ _ _ _ _ ih ih' => exact ih.trans ih'

/-- A part may stay in front. -/
theorem Recut.cons {ps qs : List (List α)} (h : Recut ps qs) (p : List α) :
    Recut (p :: ps) (p :: qs) := by
  induction h with
  | rel _ _ h =>
    obtain ⟨before, q, x, r, after⟩ := h
    exact Relation.EqvGen.rel _ _ (Shift.mk (p :: before) q x r after)
  | refl => exact Recut.refl _
  | symm _ _ _ ih => exact ih.symm
  | trans _ _ _ _ _ ih ih' => exact ih.trans ih'

/-- All of a part moves into the one before it. -/
theorem recut_append (p q : List α) (ps : List (List α)) :
    Recut (p :: q :: ps) ((p ++ q) :: [] :: ps) := by
  induction q generalizing p with
  | nil =>
    rw [List.append_nil]
    exact Recut.refl _
  | cons x q ih =>
    have hstep : Recut (p :: (x :: q) :: ps) ((p ++ [x]) :: q :: ps) :=
      Recut.symm (Relation.EqvGen.rel _ _ (Shift.mk [] p x q ps))
    have hrest := ih (p ++ [x])
    rw [List.append_assoc, List.singleton_append] at hrest
    exact hstep.trans hrest

/-- All parts move into the first one. -/
theorem recut_flatten (p : List α) (ps : List (List α)) :
    Recut (p :: ps) ((p :: ps).flatten :: List.replicate ps.length []) := by
  induction ps generalizing p with
  | nil =>
    rw [List.flatten_cons, List.flatten_nil, List.append_nil]
    exact Recut.refl _
  | cons q ps ih => exact ((ih q).cons p).trans (recut_append p _ _)

/-- **Concatenation loses the borders**, and nothing else. -/
theorem recut_iff {ps qs : List (List α)} (hlen : ps.length = qs.length) :
    Recut ps qs ↔ ps.flatten = qs.flatten := by
  refine ⟨Recut.flatten_eq, fun h => ?_⟩
  cases ps with
  | nil =>
    obtain rfl := List.eq_nil_of_length_eq_zero hlen.symm
    exact Recut.refl _
  | cons p ps =>
    cases qs with
    | nil => cases hlen
    | cons q qs =>
      have hq := (recut_flatten q qs).symm
      rw [← h, ← Nat.succ.inj hlen] at hq
      exact (recut_flatten p ps).trans hq

/-! ## With a separator -/

section Separator

variable [BEq α] [LawfulBEq α] (sep : α)

/-- The parts cut at the separators in them. -/
def pieces (ps : List (List α)) : List (List α) := ps.flatMap (List.splitOn sep)

variable {sep}

/-- Splitting what was joined splits each part. -/
theorem splitOn_intercalate {ps : List (List α)} (h : ps ≠ []) :
    List.splitOn sep ([sep].intercalate ps) = pieces sep ps := by
  induction ps with
  | nil => exact absurd rfl h
  | cons p ps ih =>
    cases ps with
    | nil => simp [pieces]
    | cons q ps =>
      have hcut := List.splitOnP_append_cons (p := (· == sep)) p ([sep].intercalate (q :: ps))
        (beq_self_eq_true sep)
      rw [List.intercalate_cons_cons, List.append_assoc, List.singleton_append]
      exact hcut.trans (congrArg (List.splitOn sep p ++ ·) (ih (List.cons_ne_nil q ps)))

/-- **Separators lose which of them is one**, and nothing else. -/
theorem intercalate_eq_iff {ps qs : List (List α)} (hp : ps ≠ []) (hq : qs ≠ []) :
    [sep].intercalate ps = [sep].intercalate qs ↔ pieces sep ps = pieces sep qs := by
  rw [← splitOn_intercalate hp, ← splitOn_intercalate hq]
  refine ⟨congrArg _, fun h => ?_⟩
  calc [sep].intercalate ps
      = [sep].intercalate (List.splitOn sep ([sep].intercalate ps)) :=
        (List.intercalate_splitOn sep).symm
    _ = [sep].intercalate (List.splitOn sep ([sep].intercalate qs)) := by rw [h]
    _ = [sep].intercalate qs := List.intercalate_splitOn sep

/-- Parts without the separator are their own pieces. -/
theorem pieces_of_notMem {ps : List (List α)} (h : ∀ p ∈ ps, sep ∉ p) : pieces sep ps = ps := by
  induction ps with
  | nil => rfl
  | cons p ps ih =>
    have hp : List.splitOn sep ([sep].intercalate [p]) = [p] :=
      List.splitOn_intercalate sep (by simpa using h p List.mem_cons_self) (List.cons_ne_nil p [])
    rw [List.intercalate_singleton] at hp
    rw [pieces, List.flatMap_cons, hp, ← pieces,
      ih fun q hq => h q (List.mem_cons_of_mem p hq), List.singleton_append]

end Separator

end Joining
