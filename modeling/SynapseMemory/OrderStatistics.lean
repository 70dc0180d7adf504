import Mathlib

/-!
# Order statistics with one element left out

The **rank** of an element is the number of elements below it. In a sorted list the elements below
one are a front part, so the entry at a place is below it if its rank is beyond that place
(`getElem_lt_iff`).

Leave out one element of a list at a time, and compare it with the entry of the others at a fixed
place. It is not above that entry if its rank in the whole list is at most the place
(`le_orderStat_eraseIdx_iff`), and of these there are more than the place says
(`lt_countP_rank_le`). At the last place only a strict maximum is left out
(`length_le_countP_rank_iff`).
-/

namespace OrderStatistics

variable {α : Type*} [LinearOrder α]

/-- The number of elements below one. -/
def rank (l : List α) (x : α) : ℕ := l.countP (· < x)

/-- The list in ascending order. -/
def sorted (l : List α) : List α := l.mergeSort (· ≤ ·)

theorem sorted_perm (l : List α) : (sorted l).Perm l := List.mergeSort_perm l _

theorem length_sorted (l : List α) : (sorted l).length = l.length := (sorted_perm l).length_eq

theorem pairwise_sorted (l : List α) : (sorted l).Pairwise (· ≤ ·) := by
  have h : (sorted l).Pairwise fun a b => decide (a ≤ b) = true :=
    List.pairwise_mergeSort
      (fun a b c hab hbc => decide_eq_true ((of_decide_eq_true hab).trans (of_decide_eq_true hbc)))
      (fun a b => by simpa using le_total a b) l
  exact h.imp of_decide_eq_true

theorem rank_perm {l l' : List α} (h : l.Perm l') (x : α) : rank l x = rank l' x :=
  h.countP_eq _

theorem rank_cons (a : α) (l : List α) (x : α) :
    rank (a :: l) x = rank l x + if a < x then 1 else 0 := by
  simp [rank, List.countP_cons]

/-! ## Sorted lists -/

/-- The elements below one are a front part. -/
theorem getElem_lt_iff {s : List α} (h : s.Pairwise (· ≤ ·)) (x : α) {k : ℕ} (hk : k < s.length) :
    s[k] < x ↔ k < rank s x := by
  induction s generalizing k with
  | nil => cases hk
  | cons a s ih =>
    obtain ⟨hhead, htail⟩ := List.pairwise_cons.mp h
    rw [rank_cons]
    by_cases ha : a < x
    · rw [if_pos ha]
      cases k with
      | zero => exact iff_of_true ha (Nat.succ_pos _)
      | succ k => simpa using ih htail (Nat.lt_of_succ_lt_succ hk)
    · -- nothing is below it
      have hzero : rank s x = 0 :=
        List.countP_eq_zero.mpr fun b hb => by
          simpa using (not_lt.mp ha).trans (hhead b hb)
      rw [if_neg ha, hzero]
      refine iff_of_false (fun hlt => ha ?_) (Nat.not_lt_zero k)
      rcases List.mem_cons.mp (List.getElem_mem hk) with heq | hmem
      · exact heq ▸ hlt
      · exact (hhead _ hmem).trans_lt hlt

/-- The elements up to a place have at most its rank. -/
theorem lt_countP_rank_le_of_sorted {s : List α} (h : s.Pairwise (· ≤ ·)) {k : ℕ}
    (hk : k < s.length) : k < s.countP fun x => rank s x ≤ k := by
  have hfront : (s.take (k + 1)).countP (fun x => rank s x ≤ k) = k + 1 := by
    rw [List.countP_eq_length.mpr, List.length_take, Nat.min_eq_left hk]
    intro x hx
    obtain ⟨j, hj, rfl⟩ := List.mem_take_iff_getElem.mp hx
    have hjk : j < s.length := by omega
    have hle : s[j] ≤ s[k] := by
      rcases (show j ≤ k by omega).eq_or_lt with rfl | hlt
      · exact le_refl _
      · exact List.pairwise_iff_getElem.mp h j k hjk hk hlt
    exact decide_eq_true (Nat.not_lt.mp fun hlt => not_lt.mpr hle ((getElem_lt_iff h _ hk).mpr hlt))
  exact hfront.symm.le.trans ((List.take_sublist _ _).countP_le)

/-! ## One element is left out -/

/-- Leaving an element out does not change its own rank. -/
theorem rank_eraseIdx (l : List α) {i : ℕ} (hi : i < l.length) :
    rank (l.eraseIdx i) l[i] = rank l l[i] := by
  have hperm := rank_perm (List.getElem_cons_eraseIdx_perm hi) l[i]
  rw [rank_cons, if_neg (lt_irrefl _), Nat.add_zero] at hperm
  exact hperm

/-- **An element against an entry of the others.** -/
theorem le_orderStat_eraseIdx_iff (l : List α) {i k : ℕ} (hi : i < l.length)
    (hk : k < (sorted (l.eraseIdx i)).length) :
    l[i] ≤ (sorted (l.eraseIdx i))[k] ↔ rank l l[i] ≤ k := by
  rw [← not_lt, getElem_lt_iff (pairwise_sorted _) _ hk, rank_perm (sorted_perm _),
    rank_eraseIdx l hi, Nat.not_lt]

/-- At least one element more than `k` has rank `k` or less. -/
theorem lt_countP_rank_le (l : List α) {k : ℕ} (hk : k < l.length) :
    k < l.countP fun x => rank l x ≤ k := by
  have hsorted := lt_countP_rank_le_of_sorted (pairwise_sorted l) ((length_sorted l).symm ▸ hk)
  rw [(sorted_perm l).countP_eq] at hsorted
  simpa only [rank_perm (sorted_perm l)] using hsorted

/-- The greatest element is there more than once. -/
def GreatestTwice (l : List α) : Prop := ∃ m, 2 ≤ l.count m ∧ ∀ x ∈ l, x ≤ m

/-- What is not below the greatest element is the greatest element. -/
theorem rank_add_count {l : List α} {m : α} (hmax : ∀ x ∈ l, x ≤ m) :
    rank l m + l.count m = l.length := by
  rw [l.length_eq_countP_add_countP (· < m), rank, List.count]
  refine congrArg _ (List.countP_congr fun x hx => ?_)
  have heq : ¬x < m ↔ x = m := not_lt.trans (hmax x hx).ge_iff_eq
  simp [heq]

/-- When the greatest element is there twice. -/
theorem greatestTwice_iff {l : List α} (hne : l ≠ []) :
    GreatestTwice l ↔ ∀ x ∈ l, rank l x + 2 ≤ l.length := by
  constructor
  · rintro ⟨m, htwice, hmax⟩ x hx
    have hle : rank l x ≤ rank l m := List.countP_mono_left fun y _ hy =>
      decide_eq_true ((of_decide_eq_true hy).trans_le (hmax x hx))
    have hm := rank_add_count hmax
    omega
  · intro h
    obtain ⟨m, hm, hmax⟩ := l.toFinset.exists_max_image id
      (List.toFinset_nonempty_iff l |>.mpr hne)
    have hmax' : ∀ x ∈ l, x ≤ m := fun x hx => hmax x (List.mem_toFinset.mpr hx)
    have hcount := rank_add_count hmax'
    have hrank := h m (List.mem_toFinset.mp hm)
    exact ⟨m, by omega, hmax'⟩

/-- **At the last place only a strict maximum is left out.** -/
theorem length_le_countP_rank_iff {l : List α} (hlen : 2 ≤ l.length) :
    (l.length ≤ l.countP fun x => rank l x ≤ l.length - 2) ↔ GreatestTwice l := by
  have hall : (l.length ≤ l.countP fun x => rank l x ≤ l.length - 2) ↔
      ∀ x ∈ l, decide (rank l x ≤ l.length - 2) = true :=
    List.countP_le_length.ge_iff_eq.trans List.countP_eq_length
  rw [hall, greatestTwice_iff (List.ne_nil_of_length_pos (by omega))]
  refine forall₂_congr fun x _ => ?_
  rw [decide_eq_true_eq]
  omega

omit [LinearOrder α] in
/-- Each element is counted once, by its place. -/
theorem countP_finRange (l : List α) (p : α → Bool) :
    ((List.finRange l.length).countP fun i => p (l.get i)) = l.countP p := by
  conv_rhs => rw [← List.map_get_finRange l, List.countP_map]
  rfl

end OrderStatistics
