import Mathlib

/-!
# Counting sort

Elements with a key each are put into an array, those of a key in a segment of their own. `below` is
where the segment of a key starts: the number of elements with a smaller key, the sums of the counts
of the keys. Each element goes to the first free place of its segment.

`Placed` says of an array what it holds after some of the elements: in each segment they are there
one after the other, in their order. An element changes one place, which is outside of all other
segments (`Placed.step`). Arrays are tables of a function (`tab`).
-/

namespace CountingSort

/-! ## Tables -/

variable {α β : Type*}

/-- The table of a function. -/
def tab (n : ℕ) (f : ℕ → β) : List β := (List.range n).map f

@[simp] theorem length_tab (n : ℕ) (f : ℕ → β) : (tab n f).length = n := by simp [tab]

theorem getElem?_tab {n i : ℕ} (h : i < n) (f : ℕ → β) : (tab n f)[i]? = some (f i) := by
  simp [tab, List.getElem?_range h]

theorem replicate_eq_tab (n : ℕ) (x : β) : List.replicate n x = tab n fun _ => x := by
  simp [tab]

theorem tab_congr {n : ℕ} {f g : ℕ → β} (h : ∀ i < n, f i = g i) : tab n f = tab n g :=
  List.map_congr_left fun i hi => h i (List.mem_range.mp hi)

/-- Setting an entry updates the function. -/
theorem set_tab (n : ℕ) (f : ℕ → β) (i : ℕ) (x : β) :
    (tab n f).set i x = tab n (Function.update f i x) := by
  refine List.ext_getElem? fun j => ?_
  rcases lt_or_ge j n with hj | hj
  · rw [getElem?_tab hj, List.getElem?_set, length_tab, getElem?_tab hj]
    by_cases hij : i = j
    · subst hij
      simp [hj]
    · simp [hij, Function.update_of_ne (Ne.symm hij)]
  · rw [List.getElem?_eq_none (by simpa using hj), List.getElem?_eq_none (by simpa using hj)]

/-- An array of one component of the entries. -/
theorem set_tab_component {γ : Type*} (n : ℕ) (g : ℕ → β) (c : β → γ) (i : ℕ) (x : β) :
    (tab n fun k => c (g k)).set i (c x) = tab n fun k => c (Function.update g i x k) := by
  rw [set_tab]
  exact tab_congr fun k _ => (Function.apply_update (fun _ => c) g i x k).symm

/-- `table[s..s + k]` -/
theorem take_drop_tab {n s k : ℕ} (h : s + k ≤ n) (f : ℕ → β) :
    ((tab n f).drop s).take k = (List.range' s k).map f := by
  obtain ⟨m, rfl⟩ := Nat.exists_eq_add_of_le h
  -- what is before the slice, the slice and what is after it
  have hsplit : List.range (s + k + m) =
      List.range' 0 s ++ (List.range' s k ++ List.range' (s + k) m) := by
    have hfirst : List.range' 0 s ++ List.range' s (k + m) = List.range' 0 (s + (k + m)) := by
      simpa using List.range'_append_1 (s := 0) (m := s) (n := k + m)
    rw [List.range'_append_1, hfirst, List.range_eq_range', add_assoc]
  rw [tab, ← List.map_drop, ← List.map_take, hsplit, List.drop_left' (by simp),
    List.take_left' (by simp)]

/-! ## Segments -/

/-- The number of smaller keys. -/
def below (keys : List ℕ) (i : ℕ) : ℕ := keys.countP (· < i)

@[simp] theorem below_zero (keys : List ℕ) : below keys 0 = 0 := by simp [below]

/-- **The segments are one after the other.** -/
theorem below_succ (keys : List ℕ) (i : ℕ) : below keys (i + 1) = below keys i + keys.count i := by
  induction keys with
  | nil => rfl
  | cons k keys ih =>
    simp only [below, List.countP_cons, List.count_cons] at ih ⊢
    rw [ih]
    by_cases hlt : k < i
    · simp [hlt, hlt.ne, Nat.lt_succ_of_lt hlt]
      omega
    · by_cases heq : k = i
      · simp [heq]
        omega
      · simp [hlt, heq, show ¬k < i + 1 by omega]

theorem below_mono (keys : List ℕ) : Monotone (below keys) :=
  monotone_nat_of_le_succ fun i => by rw [below_succ]; exact Nat.le_add_right _ _

/-- Below a bound of all keys are all of them. -/
theorem below_eq_length {keys : List ℕ} {n : ℕ} (h : ∀ k ∈ keys, k < n) :
    below keys n = keys.length :=
  List.countP_eq_length.mpr fun k hk => decide_eq_true (h k hk)

theorem below_le_length (keys : List ℕ) (i : ℕ) : below keys i ≤ keys.length :=
  List.countP_le_length

/-- Segments of two keys have no place in common. -/
theorem below_add_count_le {keys : List ℕ} {i j : ℕ} (h : i < j) :
    below keys i + keys.count i ≤ below keys j :=
  (below_succ keys i).symm ▸ below_mono keys h

/-! ## Places -/

variable {key : α → ℕ} {val : α → β}

/-- The number of elements of a key. -/
def filled (key : α → ℕ) (done : List α) (i : ℕ) : ℕ := (done.map key).count i

/-- A further item fills its own bucket. -/
theorem filled_concat (done : List α) (a : α) (i : ℕ) :
    filled key (done ++ [a]) i = filled key done i + if key a = i then 1 else 0 := by
  simp [filled, List.count_singleton]

/-- The same, as an update of the counts. -/
theorem filled_update (done : List α) (a : α) :
    Function.update (filled key done) (key a) (filled key done (key a) + 1) =
      filled key (done ++ [a]) := by
  funext i
  by_cases hi : i = key a
  · subst hi
    rw [Function.update_self, filled_concat, if_pos rfl]
  · rw [Function.update_of_ne hi, filled_concat, if_neg (Ne.symm hi), add_zero]

/-- A bucket has no more items than were placed. -/
theorem filled_le_length (done : List α) (i : ℕ) : filled key done i ≤ done.length := by
  rw [← List.length_map (f := key)]
  exact List.count_le_length

/-- Where the next element of a key goes. -/
def place (key : α → ℕ) (all done : List α) (i : ℕ) : ℕ := below (all.map key) i + filled key done i

/-- An element that is to come has a place in its segment. -/
theorem place_lt {all done rest : List α} {a : α} (h : all = done ++ a :: rest) :
    place key all done (key a) < below (all.map key) (key a) + (all.map key).count (key a) := by
  have hcount : (all.map key).count (key a) =
      filled key done (key a) + (1 + (rest.map key).count (key a)) := by
    rw [h, filled, List.map_append, List.count_append, List.map_cons, List.count_cons_self]
    omega
  rw [place, hcount]
  omega

/-- The place of an item is in the array. -/
theorem place_lt_length {all done rest : List α} {a : α} (h : all = done ++ a :: rest) :
    place key all done (key a) < all.length := by
  have hend := below_le_length (all.map key) (key a + 1)
  rw [below_succ, List.length_map] at hend
  exact (place_lt h).trans_le hend

/-- After an item was placed, the next one of its bucket goes behind it. -/
theorem place_update (all done : List α) (a : α) :
    Function.update (place key all done) (key a) (place key all done (key a) + 1) =
      place key all (done ++ [a]) := by
  funext i
  have hfilled : Function.update (filled key done) (key a) (filled key done (key a) + 1) i =
      filled key (done ++ [a]) i := congrFun (filled_update done a) i
  by_cases hi : i = key a
  · subst hi
    rw [Function.update_self] at hfilled ⊢
    rw [place, place, ← hfilled, add_assoc]
  · rw [Function.update_of_ne hi] at hfilled ⊢
    rw [place, place, hfilled]

/-- The elements so far are in their segments. -/
def Placed (key : α → ℕ) (val : α → β) (all done : List α) (g : ℕ → β) : Prop :=
  ∀ i, (List.range' (below (all.map key) i) (filled key done i)).map g =
    (done.filter (key · = i)).map val

/-- Nothing has been placed at first. -/
theorem Placed.nil (all : List α) (g : ℕ → β) : Placed key val all [] g := fun i => by
  simp [filled]

/-- **An element goes to the next place of its segment**, and no other segment changes. -/
theorem Placed.step {all done rest : List α} {a : α} {g : ℕ → β} (h : Placed key val all done g)
    (hall : all = done ++ a :: rest) :
    Placed key val all (done ++ [a]) (Function.update g (place key all done (key a)) (val a)) := by
  intro i
  have hplace : place key all done (key a) <
      below (all.map key) (key a) + (all.map key).count (key a) := place_lt hall
  -- the places that were filled keep what they have
  have hkept : (List.range' (below (all.map key) i) (filled key done i)).map
      (Function.update g (place key all done (key a)) (val a)) =
        (done.filter (key · = i)).map val := by
    rw [← h i]
    refine List.map_congr_left fun p hp => Function.update_of_ne ?_ _ _
    obtain ⟨hlo, hhi⟩ := List.mem_range'_1.mp hp
    have hfilled : filled key done i ≤ (all.map key).count i := by
      rw [hall, filled, List.map_append, List.count_append]
      exact Nat.le_add_right _ _
    rcases lt_trichotomy i (key a) with hlt | rfl | hgt
    · have hends : below (all.map key) i + (all.map key).count i ≤ below (all.map key) (key a) :=
        below_add_count_le hlt
      rw [place]
      omega
    · rw [place]
      omega
    · have hends : below (all.map key) (key a) + (all.map key).count (key a) ≤
          below (all.map key) i := below_add_count_le hgt
      omega
  rw [filled_concat, List.filter_append, List.map_append, ← hkept]
  by_cases hkey : key a = i
  · subst hkey
    rw [if_pos rfl, List.range'_1_concat, List.map_append, List.map_singleton, ← place,
      Function.update_self]
    simp
  · simp [hkey]

end CountingSort
