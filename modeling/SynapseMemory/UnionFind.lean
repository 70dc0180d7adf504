import Mathlib

/-!
# Forests of parents

Each element of a finite set has a parent, and an element that is its own parent is a root.
Following the parents leads from every element to the root of its tree (`Rooted`). Two steps change
a forest: an element is hung directly below its root (`Rooted.compress`), and a root is hung below
another one (`Rooted.link`). A tree is never deeper than the number of elements that are no roots,
so following the parents takes less steps than there are elements (`Rooted.depth_lt_card`).

A forest whose trees are the classes that a relation generates (`Classes`) stays one when a pair is
added to the relation and the two trees are linked. Two elements are in one class exactly if they
have one root (`Classes.root_eq_iff`), so the order in which the pairs come does not matter.
-/

namespace UnionFind

open Relation

variable {α : Type*} [DecidableEq α] {s : Finset α} {parent root : α → α} {depth : α → ℕ}

/-! ## Trees -/

/-- The parents lead from each element of `s` to its root, and the depths go down on the way. -/
structure Rooted (s : Finset α) (parent root : α → α) (depth : α → ℕ) : Prop where
  parent_mem : ∀ a ∈ s, parent a ∈ s
  of_self : ∀ a ∈ s, parent a = a → root a = a ∧ depth a = 0
  root_parent : ∀ a ∈ s, root (parent a) = root a
  depth_parent : ∀ a ∈ s, parent a ≠ a → depth (parent a) < depth a
  depth_add_le : ∀ a ∈ s, depth a + (s.filter fun b => parent b = b).card ≤ s.card

namespace Rooted

/-- Every element is a root. -/
theorem start (s : Finset α) : Rooted s id id fun _ => 0 where
  parent_mem _ ha := ha
  of_self _ _ _ := ⟨rfl, rfl⟩
  root_parent _ _ := rfl
  depth_parent _ _ hne := absurd rfl hne
  depth_add_le _ _ := by
    rw [Nat.zero_add]
    exact Finset.card_filter_le _ _

variable (h : Rooted s parent root depth)
include h

theorem root_spec {a : α} (ha : a ∈ s) : root a ∈ s ∧ parent (root a) = root a := by
  induction hd : depth a using Nat.strong_induction_on generalizing a with
  | _ d ih =>
    by_cases hself : parent a = a
    · rw [(h.of_self a ha hself).1]
      exact ⟨ha, hself⟩
    · rw [← h.root_parent a ha]
      exact ih _ (hd ▸ h.depth_parent a ha hself) (h.parent_mem a ha) rfl

theorem root_root {a : α} (ha : a ∈ s) : root (root a) = root a :=
  (h.of_self _ (h.root_spec ha).1 (h.root_spec ha).2).1

theorem depth_root {a : α} (ha : a ∈ s) : depth (root a) = 0 :=
  (h.of_self _ (h.root_spec ha).1 (h.root_spec ha).2).2

theorem parent_ne {a : α} (ha : a ∈ s) (hne : root a ≠ a) : parent a ≠ a :=
  fun hself => hne (h.of_self a ha hself).1

theorem depth_lt_card {a : α} (ha : a ∈ s) : depth a < s.card := by
  obtain ⟨hmem, hroot⟩ := h.root_spec ha
  have hpos : 0 < (s.filter fun b => parent b = b).card :=
    Finset.card_pos.mpr ⟨root a, Finset.mem_filter.mpr ⟨hmem, hroot⟩⟩
  have hle := h.depth_add_le a ha
  omega

/-- **Path compression.** -/
theorem compress {a : α} (ha : a ∈ s) (hne : root a ≠ a) :
    Rooted s (Function.update parent a (root a)) root depth := by
  have hparent := h.parent_ne ha hne
  have hroots : (s.filter fun b => Function.update parent a (root a) b = b) =
      s.filter fun b => parent b = b := by
    refine Finset.filter_congr fun b _ => ?_
    by_cases hb : b = a
    · subst hb
      rw [Function.update_self]
      exact iff_of_false hne hparent
    · rw [Function.update_of_ne hb]
  refine ⟨fun b hb => ?_, fun b hb => ?_, fun b hb => ?_, fun b hb => ?_, hroots ▸ h.depth_add_le⟩
  · by_cases hba : b = a
    · rw [hba, Function.update_self]
      exact (h.root_spec ha).1
    · rw [Function.update_of_ne hba]
      exact h.parent_mem b hb
  · by_cases hba : b = a
    · rw [hba, Function.update_self]
      exact fun hself => absurd hself hne
    · rw [Function.update_of_ne hba]
      exact h.of_self b hb
  · by_cases hba : b = a
    · rw [hba, Function.update_self]
      exact h.root_root ha
    · rw [Function.update_of_ne hba]
      exact h.root_parent b hb
  · by_cases hba : b = a
    · have hlt := h.depth_parent a ha hparent
      rw [hba, Function.update_self, h.depth_root ha]
      exact fun _ => Nat.zero_lt_of_lt hlt
    · rw [Function.update_of_ne hba]
      exact h.depth_parent b hb

/-- **A root below another one.** -/
theorem link {a b : α} (ha : a ∈ s) (hb : b ∈ s) (hra : parent a = a) (hrb : parent b = b)
    (hne : a ≠ b) :
    Rooted s (Function.update parent a b) (fun x => if root x = a then b else root x)
      fun x => if root x = a then depth x + 1 else depth x := by
  obtain ⟨hroot, hdepth⟩ := h.of_self a ha hra
  obtain ⟨hrootb, hdepthb⟩ := h.of_self b hb hrb
  have hroots : (s.filter fun x => Function.update parent a b x = x) =
      (s.filter fun x => parent x = x).erase a := by
    ext x
    rw [Finset.mem_erase, Finset.mem_filter, Finset.mem_filter]
    by_cases hx : x = a
    · subst hx
      rw [Function.update_self]
      exact iff_of_false (fun hself => hne hself.2.symm) fun hself => hself.1 rfl
    · rw [Function.update_of_ne hx, and_iff_right hx]
  have hmem : a ∈ s.filter fun x => parent x = x := Finset.mem_filter.mpr ⟨ha, hra⟩
  have hcard := Finset.card_pos.mpr ⟨a, hmem⟩
  refine ⟨fun x hx => ?_, fun x hx => ?_, fun x hx => ?_, fun x hx => ?_, fun x hx => ?_⟩
  · by_cases hxa : x = a
    · rwa [hxa, Function.update_self]
    · rw [Function.update_of_ne hxa]
      exact h.parent_mem x hx
  · by_cases hxa : x = a
    · subst hxa
      rw [Function.update_self]
      exact fun hself => absurd hself.symm hne
    · rw [Function.update_of_ne hxa]
      intro hself
      rw [(h.of_self x hx hself).1, if_neg hxa, if_neg hxa]
      exact ⟨rfl, (h.of_self x hx hself).2⟩
  · by_cases hxa : x = a
    · subst hxa
      rw [Function.update_self, hroot, if_pos rfl, hrootb, if_neg hne.symm]
    · rw [Function.update_of_ne hxa, h.root_parent x hx]
  · by_cases hxa : x = a
    · subst hxa
      rw [Function.update_self, hroot, if_pos rfl, hrootb, if_neg hne.symm, hdepthb]
      exact fun _ => Nat.succ_pos _
    · rw [Function.update_of_ne hxa, h.root_parent x hx]
      intro hself
      have hlt := h.depth_parent x hx hself
      split
      · omega
      · exact hlt
  · have hle := h.depth_add_le x hx
    rw [hroots, Finset.card_erase_of_mem hmem]
    split
    · omega
    · omega

end Rooted

/-! ## Classes -/

/-- The trees are the classes that the relation generates. -/
structure Classes (E : α → α → Prop) (s : Finset α) (parent root : α → α) (depth : α → ℕ) : Prop
    extends Rooted s parent root depth where
  joined : ∀ a b, E a b → root a = root b
  linked : ∀ a ∈ s, EqvGen E a (root a)

namespace Classes

/-- Without a pair every element is a class. -/
theorem start (s : Finset α) : Classes (fun _ _ => False) s id id fun _ => 0 where
  toRooted := Rooted.start s
  joined _ _ := False.elim
  linked a _ := .refl a

variable {E : α → α → Prop} (h : Classes E s parent root depth)
include h

/-- **Elements of one class have one root.** -/
theorem root_eq_iff {a b : α} (ha : a ∈ s) (hb : b ∈ s) : root a = root b ↔ EqvGen E a b := by
  constructor
  · intro heq
    exact (h.linked a ha).trans _ _ _ (heq ▸ (h.linked b hb).symm)
  · intro hab
    clear ha hb
    induction hab with
    | rel a b hab => exact h.joined a b hab
    | refl a => rfl
    | symm a b _ ih => exact ih.symm
    | trans a b c _ _ ihab ihbc => exact ihab.trans ihbc

theorem compress {a : α} (ha : a ∈ s) (hne : root a ≠ a) :
    Classes E s (Function.update parent a (root a)) root depth :=
  ⟨h.toRooted.compress ha hne, h.joined, h.linked⟩

/-- A pair of one class changes nothing. -/
theorem insert_same {a b : α} (heq : root a = root b) :
    Classes (fun x y => E x y ∨ x = a ∧ y = b) s parent root depth := by
  refine ⟨h.toRooted, ?_, fun x hx => (h.linked x hx).mono fun _ _ => .inl⟩
  rintro x y (hxy | ⟨rfl, rfl⟩)
  · exact h.joined x y hxy
  · exact heq

/-- **A pair of two classes makes one of them.** -/
theorem insert_link {a b : α} (ha : a ∈ s) (hb : b ∈ s) (hne : root a ≠ root b) :
    Classes (fun x y => E x y ∨ x = a ∧ y = b) s (Function.update parent (root a) (root b))
      (fun x => if root x = root a then root b else root x)
      fun x => if root x = root a then depth x + 1 else depth x := by
  obtain ⟨hmema, hroota⟩ := h.root_spec ha
  obtain ⟨hmemb, hrootb⟩ := h.root_spec hb
  have hmono : ∀ x ∈ s, EqvGen (fun x y => E x y ∨ x = a ∧ y = b) x (root x) :=
    fun x hx => (h.linked x hx).mono fun _ _ => .inl
  refine ⟨h.toRooted.link hmema hmemb hroota hrootb hne, ?_, fun x hx => ?_⟩
  · rintro x y (hxy | ⟨rfl, rfl⟩)
    · rw [h.joined x y hxy]
    · rw [if_pos rfl, if_neg hne.symm]
  · split
    next heq =>
      have hxa := (hmono x hx).trans _ _ _ (heq ▸ (hmono a ha).symm)
      exact (hxa.trans _ _ _ (.rel a b (.inr ⟨rfl, rfl⟩))).trans _ _ _ (hmono b hb)
    next => exact hmono x hx

end Classes

end UnionFind
