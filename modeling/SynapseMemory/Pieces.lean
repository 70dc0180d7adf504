import Mathlib

/-!
# The pieces of a list

The pieces of a list are the longest blocks of neighbours with a property, in their order: what a
split at all other elements leaves, without the empty parts.

Pieces do not depend on what is between them. Two lists are `Blurred` if they have the same elements
with the property, and between these something without it in both lists or in neither; they then
have the same pieces (`Blurred.pieces_eq`). So a text may be rewritten outside the pieces.
-/

variable {α : Type*} {p q : α → Bool}

/-- The longest blocks of elements with the property. -/
def pieces (p : α → Bool) (l : List α) : List (List α) :=
  (l.splitOnP fun a => !p a).filter fun w => !w.isEmpty

theorem pieces_append_cons {a : α} (ha : p a = false) (l m : List α) :
    pieces p (l ++ a :: m) = pieces p l ++ pieces p m := by
  rw [pieces, List.splitOnP_append_cons _ _ (by rw [ha]; rfl), List.filter_append]
  rfl

@[simp] theorem pieces_nil : pieces p [] = [] := rfl

theorem pieces_cons_of_not {a : α} (ha : p a = false) (l : List α) :
    pieces p (a :: l) = pieces p l :=
  pieces_append_cons ha [] l

/-- What is before the first piece. -/
theorem pieces_append_of_not {x : List α} (hx : ∀ a ∈ x, p a = false) (l : List α) :
    pieces p (x ++ l) = pieces p l := by
  induction x with
  | nil => rfl
  | cons a x ih =>
    obtain ⟨ha, hx⟩ := List.forall_mem_cons.mp hx
    rw [List.cons_append, pieces_cons_of_not ha, ih hx]

/-- A block is one piece. -/
theorem pieces_of_all {l : List α} (hne : l ≠ []) (h : ∀ a ∈ l, p a = true) : pieces p l = [l] := by
  have hsplit : (l.splitOnP fun a => !p a) = [l] :=
    List.splitOnP_eq_singleton fun a ha => by rw [h a ha]; rfl
  rw [pieces, hsplit]
  simp [hne]

/-- The pieces of two lists, if the second one does not go on with a piece of the first. -/
theorem pieces_append {l m : List α} (h : ∀ a ∈ m.head?, p a = false) :
    pieces p (l ++ m) = pieces p l ++ pieces p m := by
  cases m with
  | nil => simp
  | cons a m =>
    have ha := h a rfl
    rw [pieces_append_cons ha, pieces_cons_of_not ha]

theorem pieces_append' {l m : List α} (h : ∀ a ∈ l.getLast?, p a = false) :
    pieces p (l ++ m) = pieces p l ++ pieces p m := by
  rcases List.eq_nil_or_concat l with rfl | ⟨l, a, rfl⟩
  · rfl
  · rw [List.concat_eq_append] at h ⊢
    have ha : p a = false := h a (by simp)
    rw [List.append_assoc, List.singleton_append, pieces_append_cons ha, pieces_append_cons ha,
      pieces_nil, List.append_nil]

/-- The pieces depend on which elements are separators only. -/
theorem pieces_congr {l : List α} (h : ∀ a ∈ l, p a = q a) : pieces p l = pieces q l := by
  have hsplit : (l.splitOnP fun a => !p a) = l.splitOnP fun a => !q a := by
    induction l with
    | nil => rfl
    | cons a l ih =>
      obtain ⟨ha, hl⟩ := List.forall_mem_cons.mp h
      rw [List.splitOnP_cons_eq_if_modifyHead, List.splitOnP_cons_eq_if_modifyHead, ha, ih hl]
  rw [pieces, pieces, hsplit]

/-- The elements of a piece. -/
theorem mem_splitOnP {l w : List α} (hw : w ∈ l.splitOnP fun a => !p a) :
    ∀ a ∈ w, a ∈ l ∧ p a = true := by
  induction l generalizing w with
  | nil =>
    obtain rfl := List.mem_singleton.mp hw
    exact nofun
  | cons b l ih =>
    have hlater : ∀ {v}, v ∈ (l.splitOnP fun a => !p a) → ∀ a ∈ v, a ∈ b :: l ∧ p a = true :=
      fun hv a ha => (ih hv a ha).imp_left (List.mem_cons_of_mem b)
    rw [List.splitOnP_cons_eq_if_modifyHead] at hw
    split at hw
    next => exact (List.mem_cons.mp hw).elim (fun hnil => hnil ▸ nofun) hlater
    next hb =>
      obtain ⟨v, vs, hsplit⟩ := List.exists_cons_of_ne_nil (List.splitOnP_ne_nil (fun a => !p a) l)
      rw [hsplit] at hw hlater
      rcases List.mem_cons.mp hw with rfl | hw
      · exact List.forall_mem_cons.mpr
          ⟨⟨List.mem_cons_self, by simpa using hb⟩, hlater List.mem_cons_self⟩
      · exact hlater (List.mem_cons_of_mem _ hw)

/-- What the elements of a piece are. -/
theorem mem_pieces {l w : List α} (hw : w ∈ pieces p l) : ∀ a ∈ w, a ∈ l ∧ p a = true :=
  mem_splitOnP (List.mem_filter.mp hw).1

/-- An element with the property is in a piece. -/
theorem pieces_ne_nil {l : List α} {a : α} (ha : a ∈ l) (hp : p a = true) : pieces p l ≠ [] := by
  induction l with
  | nil => cases ha
  | cons b l ih =>
    cases hb : p b with
    | false =>
      rw [pieces_cons_of_not hb]
      refine ih ((List.mem_cons.mp ha).resolve_left ?_)
      rintro rfl
      rw [hp] at hb
      cases hb
    | true =>
      obtain ⟨v, vs, hsplit⟩ := List.exists_cons_of_ne_nil (List.splitOnP_ne_nil (fun a => !p a) l)
      rw [pieces, List.splitOnP_cons_eq_if_modifyHead, hb, hsplit]
      simp

/-- The same elements with the property, and something else between the same of them. -/
inductive Blurred (p : α → Bool) : List α → List α → Prop where
  | nil : Blurred p [] []
  | keep {a : α} {l m : List α} (ha : p a = true) (h : Blurred p l m) : Blurred p (a :: l) (a :: m)
  | blur {x y l m : List α} (hx : x ≠ []) (hx' : ∀ a ∈ x, p a = false) (hy : y ≠ [])
      (hy' : ∀ a ∈ y, p a = false) (h : Blurred p l m) : Blurred p (x ++ l) (y ++ m)

/-- What is rewritten between two pieces ends the first. -/
theorem pieces_append_append {u x : List α} (hx : x ≠ []) (hx' : ∀ a ∈ x, p a = false)
    (l : List α) : pieces p (u ++ (x ++ l)) = pieces p u ++ pieces p l := by
  obtain ⟨a, x, rfl⟩ := List.exists_cons_of_ne_nil hx
  obtain ⟨ha, hx'⟩ := List.forall_mem_cons.mp hx'
  rw [List.cons_append, pieces_append_cons ha, pieces_append_of_not hx']

theorem Blurred.pieces_append {l m : List α} (h : Blurred p l m) (u : List α) :
    pieces p (u ++ l) = pieces p (u ++ m) := by
  induction h generalizing u with
  | nil => rfl
  | @keep a l m ha h ih =>
    have hcons := ih (u ++ [a])
    rwa [List.append_assoc, List.append_assoc] at hcons
  | blur hx hx' hy hy' h ih =>
    rw [pieces_append_append hx hx', pieces_append_append hy hy']
    exact congrArg _ (ih [])

/-- **The pieces stay.** -/
theorem Blurred.pieces_eq {l m : List α} (h : Blurred p l m) : pieces p l = pieces p m :=
  h.pieces_append []
