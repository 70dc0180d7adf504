import Mathlib

/-!
# Sorting without ties

A stable sort keeps the order of elements that are equal in its comparison. Where no two elements of
a list are equal in it, there is nothing to keep, and the sorted list does not depend on the order
of the list (`mergeSort_eq_of_perm`). The comparison need only order the elements of the list. A
list that is cut by a property, as a sorted one is, is cut in one place (`eq_of_cut`).
-/

namespace SynapseMemory.StableSort

variable {α : Type}

/-- A list can be cut in one way into elements with a property and elements without it. -/
theorem eq_of_cut {q : α → Bool} {xs ys xs' ys' : List α} (h : xs ++ ys = xs' ++ ys')
    (hxs : ∀ b ∈ xs, q b = true) (hys : ∀ b ∈ ys, q b = false)
    (hxs' : ∀ b ∈ xs', q b = true) (hys' : ∀ b ∈ ys', q b = false) : xs = xs' ∧ ys = ys' := by
  have hfilter : ∀ {xs ys : List α}, (∀ b ∈ xs, q b = true) → (∀ b ∈ ys, q b = false) →
      (xs ++ ys).filter q = xs := by
    intro xs ys hxs hys
    have hnone : ys.filter q = [] :=
      List.filter_eq_nil_iff.mpr fun b hb => ne_true_of_eq_false (hys b hb)
    rw [List.filter_append, List.filter_eq_self.mpr hxs, hnone, List.append_nil]
  have hfst : xs = xs' := by rw [← hfilter hxs hys, h, hfilter hxs' hys']
  refine ⟨hfst, ?_⟩
  rw [hfst] at h
  exact List.append_cancel_left h

/-- Sorting sorts a list that the comparison orders, if it orders no other elements. -/
theorem pairwise_mergeSort_of_mem {le : α → α → Bool} {l : List α}
    (htrans : ∀ a ∈ l, ∀ b ∈ l, ∀ c ∈ l, le a b = true → le b c = true → le a c = true)
    (htotal : ∀ a ∈ l, ∀ b ∈ l, (le a b || le b a) = true) :
    (l.mergeSort le).Pairwise fun a b => le a b = true := by
  have hattach : (l.attach.mergeSort fun a b => le a.1 b.1).map Subtype.val = l.mergeSort le := by
    rw [List.map_mergeSort (s := le) fun _ _ _ _ => rfl, List.attach_map_subtype_val]
  rw [← hattach, List.pairwise_map]
  refine List.pairwise_mergeSort ?_ ?_ l.attach
  · exact fun a b c => htrans a.1 a.2 b.1 b.2 c.1 c.2
  · exact fun a b => htotal a.1 a.2 b.1 b.2

/-- **A sort forgets the order**, if no two elements of the list are equal in it. -/
theorem mergeSort_eq_of_perm {le : α → α → Bool} {l l' : List α} (hperm : l.Perm l')
    (htrans : ∀ a ∈ l, ∀ b ∈ l, ∀ c ∈ l, le a b = true → le b c = true → le a c = true)
    (htotal : ∀ a ∈ l, ∀ b ∈ l, (le a b || le b a) = true)
    (hantisymm : ∀ a ∈ l, ∀ b ∈ l, le a b = true → le b a = true → a = b) :
    l.mergeSort le = l'.mergeSort le := by
  have hsorted := pairwise_mergeSort_of_mem htrans htotal
  have hsorted' : (l'.mergeSort le).Pairwise fun a b => le a b = true := by
    refine pairwise_mergeSort_of_mem (fun a ha b hb c hc => ?_) (fun a ha b hb => ?_)
    · exact htrans a (hperm.mem_iff.mpr ha) b (hperm.mem_iff.mpr hb) c (hperm.mem_iff.mpr hc)
    · exact htotal a (hperm.mem_iff.mpr ha) b (hperm.mem_iff.mpr hb)
  refine List.Perm.eq_of_pairwise (fun a b ha hb => ?_) hsorted hsorted' ?_
  · exact hantisymm a (List.mem_mergeSort.mp ha) b (hperm.mem_iff.mpr (List.mem_mergeSort.mp hb))
  · exact (List.mergeSort_perm l le).trans (hperm.trans (List.mergeSort_perm l' le).symm)

end SynapseMemory.StableSort
