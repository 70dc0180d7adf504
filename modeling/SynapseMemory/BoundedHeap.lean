import SynapseMemory.Accumulators

/-!
# Bounded heaps

A max-heap that is to keep the least `k` items it is offered. While it has less than `k` it takes
every item; then it takes an item in place of its greatest one if the item is nearer, where nearer
is less in a coarser order, given by a monotone function `f`.

What is left after any offers is told by counting. For a set of items that is closed downwards, a
heap has as many of them as it was offered, up to `k` (`le_countP_offerAll`), as long as no item of
the set is refused because of items outside it that are as near. That is so for a set of all items
up to some distance (`le_countP_offerAll_of_near`), and for any set if the items are offered in an
order that breaks ties (`le_countP_offerAll_of_order`).
-/

namespace BoundedHeap

/-- A heap, as its items in ascending order. -/
structure MaxHeap (α : Type*) [LinearOrder α] where
  items : List α
  sorted : items.Pairwise (· ≤ ·)

variable {α δ : Type*} [LinearOrder α] [LinearOrder δ]

namespace MaxHeap

/-- A heap without items. -/
def empty : MaxHeap α := ⟨[], List.Pairwise.nil⟩

/-- The number of items. -/
def size (h : MaxHeap α) : ℕ := h.items.length

/-- An item is added. -/
def push (h : MaxHeap α) (a : α) : MaxHeap α :=
  ⟨h.items.orderedInsert (· ≤ ·) a, h.sorted.orderedInsert a _⟩

/-- The greatest item. -/
def peek (h : MaxHeap α) : Option α := h.items.getLast?

/-- The greatest item is taken away. -/
def pop (h : MaxHeap α) : MaxHeap α :=
  ⟨h.items.dropLast, h.sorted.sublist (List.dropLast_sublist _)⟩

@[simp] theorem items_empty : (empty : MaxHeap α).items = [] := rfl

@[simp] theorem size_empty : (empty : MaxHeap α).size = 0 := rfl

theorem items_push (h : MaxHeap α) (a : α) : (h.push a).items.Perm (a :: h.items) :=
  List.perm_orderedInsert _ a h.items

/-- What is peeked at is popped. -/
theorem items_pop {h : MaxHeap α} {m : α} (hm : h.peek = some m) :
    h.items.Perm (m :: h.pop.items) ∧ ∀ x ∈ h.items, x ≤ m := by
  have hsplit : h.pop.items ++ [m] = h.items := List.dropLast_append_getLast? m hm
  refine ⟨hsplit ▸ List.perm_append_singleton m _, fun x hx => ?_⟩
  have hsorted := h.sorted
  rw [← hsplit, List.pairwise_append] at hsorted
  rw [← hsplit] at hx
  rcases List.mem_append.mp hx with hx | hx
  · exact hsorted.2.2 x hx m (List.mem_singleton_self m)
  · exact (List.mem_singleton.mp hx).le

end MaxHeap

variable (f : α → δ) (k : ℕ)

/-- A heap of `k` items is offered one more. -/
def offer (h : MaxHeap α) (a : α) : MaxHeap α :=
  if h.size < k then h.push a
  else
    match h.peek with
    | some m => if f a < f m then h.pop.push a else h
    | none => h

/-- Items are offered one after the other. -/
def offerAll (h : MaxHeap α) (as : List α) : MaxHeap α := as.foldl (offer f k) h

@[simp] theorem offerAll_nil (h : MaxHeap α) : offerAll f k h [] = h := rfl

theorem offerAll_cons (h : MaxHeap α) (a : α) (as : List α) :
    offerAll f k h (a :: as) = offerAll f k (offer f k h a) as := rfl

theorem offerAll_append (h : MaxHeap α) (as bs : List α) :
    offerAll f k h (as ++ bs) = offerAll f k (offerAll f k h as) bs :=
  List.foldl_append

variable {f k}

/-! ## One offer -/

/-- The item is taken, it takes the place of the greatest one, or it is refused. -/
theorem offer_cases (hk : 0 < k) (h : MaxHeap α) (a : α) :
    (h.size < k ∧ (offer f k h a).items.Perm (a :: h.items)) ∨
      k ≤ h.size ∧ ∃ m rest, h.items.Perm (m :: rest) ∧ (∀ x ∈ h.items, x ≤ m) ∧
        ((f a < f m ∧ (offer f k h a).items.Perm (a :: rest)) ∨
          ¬f a < f m ∧ offer f k h a = h) := by
  by_cases hsize : h.size < k
  · refine .inl ⟨hsize, ?_⟩
    rw [offer, if_pos hsize]
    exact h.items_push a
  · refine .inr ⟨not_lt.mp hsize, ?_⟩
    rw [offer, if_neg hsize]
    cases hpeek : h.peek with
    | none =>
      rw [MaxHeap.peek, List.getLast?_eq_none_iff] at hpeek
      rw [MaxHeap.size, hpeek] at hsize
      exact absurd hk hsize
    | some m =>
      obtain ⟨hperm, hmax⟩ := MaxHeap.items_pop hpeek
      refine ⟨m, h.pop.items, hperm, hmax, ?_⟩
      by_cases hnear : f a < f m
      · exact .inl ⟨hnear, by simpa only [hnear, if_true] using h.pop.items_push a⟩
      · exact .inr ⟨hnear, by simp only [hnear, if_false]⟩

/-- An offer fills the heap up to its bound. -/
theorem size_offer (hk : 0 < k) {h : MaxHeap α} (hsize : h.size ≤ k) (a : α) :
    (offer f k h a).size = min k (h.size + 1) := by
  rcases offer_cases (f := f) hk h a with
    ⟨hless, hperm⟩ | ⟨hfull, m, rest, hitems, -, ⟨-, hperm⟩ | ⟨-, hsame⟩⟩
  · have hlength : (offer f k h a).size = h.size + 1 := hperm.length_eq
    omega
  · have hlength : (offer f k h a).size = rest.length + 1 := hperm.length_eq
    have hbefore : h.size = rest.length + 1 := hitems.length_eq
    omega
  · rw [hsame]
    omega

/-- The items are those of the heap and the one that is offered. -/
theorem subperm_offer (hk : 0 < k) (h : MaxHeap α) (a : α) :
    (offer f k h a).items.Subperm (a :: h.items) := by
  rcases offer_cases (f := f) hk h a with
    ⟨-, hperm⟩ | ⟨-, m, rest, hitems, -, ⟨-, hperm⟩ | ⟨-, hsame⟩⟩
  · exact hperm.subperm
  · have hrest : (a :: rest).Subperm (a :: m :: rest) :=
      (List.cons_sublist_cons.mpr (List.sublist_cons_self m rest)).subperm
    exact hperm.subperm.trans (hrest.trans (hitems.symm.cons a).subperm)
  · rw [hsame]
    exact (List.sublist_cons_self a _).subperm

/-- A full heap refuses what is not nearer than its items. -/
theorem offer_of_far (hk : 0 < k) {h : MaxHeap α} (hfull : k ≤ h.size) {a : α}
    (hfar : ∀ x ∈ h.items, f x ≤ f a) : offer f k h a = h := by
  rcases offer_cases (f := f) hk h a with
    ⟨hless, -⟩ | ⟨-, m, rest, hitems, -, ⟨hnear, -⟩ | ⟨-, hsame⟩⟩
  · exact absurd hless (not_lt.mpr hfull)
  · exact absurd hnear (not_lt.mpr (hfar m (hitems.mem_iff.mpr List.mem_cons_self)))
  · exact hsame

section Count

variable {P : α → Bool}

/-- If all items of a full heap are in the set, there are `k` of them. -/
theorem le_countP_of_forall {h : MaxHeap α} (hfull : k ≤ h.size) (hall : ∀ x ∈ h.items, P x) :
    k ≤ h.items.countP P := by
  rwa [List.countP_eq_length.mpr hall]

/-- One more item of the set, unless it is refused for items outside. -/
theorem le_countP_offer (hk : 0 < k) (hmono : Monotone f) (hP : ∀ x y, x ≤ y → P y → P x)
    {h : MaxHeap α} {a : α}
    (hfit : P a → k ≤ h.size → (∀ x ∈ h.items, f x ≤ f a) → ∀ x ∈ h.items, P x) :
    min k (h.items.countP P + [a].countP P) ≤ (offer f k h a).items.countP P := by
  rcases offer_cases (f := f) hk h a with
    ⟨-, hperm⟩ | ⟨hfull, m, rest, hitems, hmax, ⟨hnear, hperm⟩ | ⟨hfar, hsame⟩⟩
  · simp only [hperm.countP_eq, List.countP_cons, List.countP_nil]
    omega
  · by_cases hm : P m = true
    · -- all items are in the set, and so is the one that is taken
      have hless : a < m := not_le.mp fun hle => not_lt.mpr (hmono hle) hnear
      have hall : ∀ x ∈ a :: rest, P x = true := by
        intro x hx
        rcases List.mem_cons.mp hx with rfl | hx
        · exact hP x m hless.le hm
        · exact hP x m (hmax x (hitems.mem_iff.mpr (List.mem_cons_of_mem m hx))) hm
      rw [hperm.countP_eq, List.countP_eq_length.mpr hall]
      have hlength : h.size = (a :: rest).length := hitems.length_eq
      omega
    · rw [hitems.countP_eq, List.countP_cons_of_neg hm]
      simp only [hperm.countP_eq, List.countP_cons, List.countP_nil]
      omega
  · rw [hsame]
    by_cases ha : P a = true
    · have hall := hfit ha hfull fun x hx => (hmono (hmax x hx)).trans (not_lt.mp hfar)
      exact (min_le_left _ _).trans (le_countP_of_forall hfull hall)
    · rw [List.countP_cons_of_neg ha, List.countP_nil]
      omega

/-! ## Many offers -/

/-- The size after all offers. -/
theorem size_offerAll (hk : 0 < k) {h : MaxHeap α} (hsize : h.size ≤ k) (as : List α) :
    (offerAll f k h as).size = min k (h.size + as.length) := by
  induction as generalizing h with
  | nil => simpa using hsize
  | cons a as ih =>
    have hstep := size_offer (f := f) hk hsize a
    rw [offerAll_cons, ih (hstep.trans_le (min_le_left _ _)), hstep, List.length_cons]
    omega

theorem size_offerAll_empty (hk : 0 < k) (as : List α) :
    (offerAll f k MaxHeap.empty as).size = min k as.length := by
  rw [size_offerAll hk (by simp), MaxHeap.size_empty, Nat.zero_add]

theorem offerAll_of_far (hk : 0 < k) {h : MaxHeap α} (hfull : k ≤ h.size) {as : List α}
    (hfar : ∀ a ∈ as, ∀ x ∈ h.items, f x ≤ f a) : offerAll f k h as = h := by
  induction as with
  | nil => rfl
  | cons a as ih =>
    rw [offerAll_cons, offer_of_far hk hfull (hfar a List.mem_cons_self)]
    exact ih fun b hb => hfar b (List.mem_cons_of_mem a hb)

/-- The heap has only items that were offered. -/
theorem subperm_offerAll (hk : 0 < k) (h : MaxHeap α) (as : List α) :
    (offerAll f k h as).items.Subperm (h.items ++ as) := by
  induction as generalizing h with
  | nil => simpa using List.Subperm.refl h.items
  | cons a as ih =>
    refine (ih (offer f k h a)).trans ?_
    have hstep := (subperm_offer (f := f) hk h a).append (List.Subperm.refl as)
    exact hstep.trans (List.perm_middle.symm.subperm)

/-- **What a heap keeps.** -/
theorem le_countP_offerAll (hk : 0 < k) (hmono : Monotone f) (hP : ∀ x y, x ≤ y → P y → P x)
    {h : MaxHeap α} {as : List α}
    (hfit : ∀ pre a post, as = pre ++ a :: post → P a → k ≤ (offerAll f k h pre).size →
      (∀ x ∈ (offerAll f k h pre).items, f x ≤ f a) →
        ∀ x ∈ (offerAll f k h pre).items, P x) :
    min k (h.items.countP P + as.countP P) ≤ (offerAll f k h as).items.countP P := by
  induction as generalizing h with
  | nil => simp
  | cons a as ih =>
    have hstep := le_countP_offer hk hmono hP (hfit [] a as rfl)
    have hrest := ih fun pre b post hsplit => hfit (a :: pre) b post (by rw [hsplit]; rfl)
    simp only [offerAll_nil, List.countP_cons, List.countP_nil] at hstep
    rw [offerAll_cons, List.countP_cons]
    omega

/-- A set of all items up to a distance. -/
theorem le_countP_offerAll_of_near (hk : 0 < k) (hmono : Monotone f)
    (hP : ∀ x y, f x ≤ f y → P y → P x) {h : MaxHeap α} {as : List α} :
    min k (h.items.countP P + as.countP P) ≤ (offerAll f k h as).items.countP P :=
  le_countP_offerAll hk hmono (fun x y hle => hP x y (hmono hle))
    fun _ a _ _ ha _ hnear x hx => hP x a (hnear x hx) ha

/-- Items that come in the order that breaks their ties. -/
theorem le_countP_offerAll_of_order (hk : 0 < k) (hmono : Monotone f)
    (hP : ∀ x y, x ≤ y → P y → P x) {as : List α}
    (horder : as.Pairwise fun x y => f x ≤ f y → x ≤ y) :
    min k (as.countP P) ≤ (offerAll f k MaxHeap.empty as).items.countP P := by
  have hfit : ∀ pre a post, as = pre ++ a :: post → P a →
      k ≤ (offerAll f k MaxHeap.empty pre).size →
      (∀ x ∈ (offerAll f k MaxHeap.empty pre).items, f x ≤ f a) →
        ∀ x ∈ (offerAll f k MaxHeap.empty pre).items, P x := by
    rintro pre a post rfl ha - hnear x hx
    have hmem : x ∈ pre := (subperm_offerAll hk MaxHeap.empty pre).subset hx
    have hties := (List.pairwise_append.mp horder).2.2 x hmem a List.mem_cons_self
    exact hP x a (hties (hnear x hx)) ha
  simpa using le_countP_offerAll hk hmono hP hfit

end Count

/-! ## The nearest items -/

section Nearest

variable (k)

/-- The least `k` items, in ascending order. -/
def nearest (as : List α) : List α := (as.mergeSort (· ≤ ·)).take k

variable {k}

theorem sortedLE_mergeSort (as : List α) : (as.mergeSort (· ≤ ·)).Pairwise (· ≤ ·) := by
  refine (List.pairwise_mergeSort ?_ ?_ as).imp of_decide_eq_true
  · simpa using fun a b c : α => le_trans
  · simpa using fun a b : α => le_total a b

/-- The items up to one of a sorted list without repetitions. -/
theorem filter_le_of_sorted {pre post : List α} {r : α}
    (hsorted : (pre ++ r :: post).Pairwise (· ≤ ·)) (hnodup : (pre ++ r :: post).Nodup) :
    (pre ++ r :: post).filter (· ≤ r) = pre ++ [r] := by
  obtain ⟨-, hpost, hpre⟩ := List.pairwise_append.mp hsorted
  have hbefore : pre.filter (· ≤ r) = pre :=
    List.filter_eq_self.mpr fun x hx => decide_eq_true (hpre x hx r List.mem_cons_self)
  have hafter : post.filter (· ≤ r) = [] := by
    refine List.filter_eq_nil_iff.mpr fun x hx hle => ?_
    have heq : r = x := le_antisymm ((List.pairwise_cons.mp hpost).1 x hx) (of_decide_eq_true hle)
    exact (List.nodup_cons.mp (List.nodup_append.mp hnodup).2.1).1 (heq ▸ hx)
  rw [List.filter_append, List.filter_cons_of_pos (by simp), hbefore, hafter]

/-- The `k`-th item: it has `k` items up to itself. -/
theorem exists_kth {as : List α} (hnodup : as.Nodup) (hk : 0 < k) (hle : k ≤ as.length) :
    ∃ r ∈ as, as.countP (· ≤ r) = k := by
  have hperm := List.mergeSort_perm as (· ≤ ·)
  obtain ⟨pre, r, post, hsplit, hlength⟩ : ∃ pre r post,
      as.mergeSort (· ≤ ·) = pre ++ r :: post ∧ pre.length + 1 = k := by
    have hless : k - 1 < (as.mergeSort (· ≤ ·)).length := by
      rw [hperm.length_eq]
      omega
    refine ⟨_, _, _, (List.take_append_drop (k - 1) _).symm.trans
      (congrArg _ (List.drop_eq_getElem_cons hless)), ?_⟩
    rw [List.length_take]
    omega
  refine ⟨r, hperm.mem_iff.mp (by simp [hsplit]), ?_⟩
  have hsorted := sortedLE_mergeSort as
  have hdistinct := hperm.nodup_iff.mpr hnodup
  rw [hsplit] at hsorted hdistinct
  rw [← hperm.countP_eq, hsplit, List.countP_eq_length_filter,
    filter_le_of_sorted hsorted hdistinct, List.length_append, List.length_singleton, hlength]

/-- The nearest items are those up to the `k`-th. -/
theorem nearest_perm_filter {as : List α} (hnodup : as.Nodup) {r : α} (hr : r ∈ as)
    (hkth : as.countP (· ≤ r) = k) : (nearest k as).Perm (as.filter (· ≤ r)) := by
  have hperm := List.mergeSort_perm as (· ≤ ·)
  obtain ⟨pre, post, hsplit⟩ := List.append_of_mem (hperm.mem_iff.mpr hr)
  have hsorted := sortedLE_mergeSort as
  have hdistinct := hperm.nodup_iff.mpr hnodup
  rw [hsplit] at hsorted hdistinct
  have hfilter := filter_le_of_sorted hsorted hdistinct
  have hlength : (pre ++ [r]).length = k := by
    rw [← hfilter, ← hsplit, ← List.countP_eq_length_filter, hperm.countP_eq, hkth]
  have hnearest : nearest k as = pre ++ [r] := by
    rw [nearest, hsplit, ← List.singleton_append, ← List.append_assoc]
    exact List.take_left' hlength
  rw [hnearest, ← hfilter, ← hsplit]
  exact hperm.filter _

/-- A heap that has `k` of the items up to the `k`-th has nothing else. -/
theorem items_eq_nearest {as : List α} (hnodup : as.Nodup) {r : α} (hr : r ∈ as)
    (hkth : as.countP (· ≤ r) = k) {h : MaxHeap α} (hsub : h.items.Subperm as) (hsize : h.size ≤ k)
    (hcount : k ≤ h.items.countP (· ≤ r)) : h.items = nearest k as := by
  have hall : h.items.filter (· ≤ r) = h.items := by
    refine List.filter_eq_self.mpr (List.countP_eq_length.mp ?_)
    exact le_antisymm List.countP_le_length (hsize.trans hcount)
  have hfilter : h.items.Subperm (as.filter (· ≤ r)) := hall ▸ hsub.filter _
  have hperm : h.items.Perm (as.filter (· ≤ r)) := by
    refine hfilter.perm_of_length_le ?_
    rw [← List.countP_eq_length_filter, hkth]
    exact hcount.trans List.countP_le_length
  refine (hperm.trans (nearest_perm_filter hnodup hr hkth).symm).eq_of_pairwise
    (fun _ _ _ _ => le_antisymm) h.sorted ?_
  exact (sortedLE_mergeSort as).sublist (List.take_sublist k _)

/-- One heap that is offered all items, in an order that breaks their ties. -/
theorem offerAll_empty_items {f : α → δ} (hk : 0 < k) (hmono : Monotone f) {as : List α}
    (hnodup : as.Nodup) (hle : k ≤ as.length) (horder : as.Pairwise fun x y => f x ≤ f y → x ≤ y) :
    (offerAll f k MaxHeap.empty as).items = nearest k as := by
  obtain ⟨r, hr, hkth⟩ := exists_kth hnodup hk hle
  have hcount := le_countP_offerAll_of_order (P := (· ≤ r)) hk hmono
    (fun x y hxy hy => decide_eq_true (hxy.trans (of_decide_eq_true hy))) horder
  rw [hkth, min_self] at hcount
  refine items_eq_nearest hnodup hr hkth (subperm_offerAll hk MaxHeap.empty as) ?_ hcount
  rw [size_offerAll_empty hk]
  exact min_le_left _ _

end Nearest

/-! ## Split lists -/

/-- An order in which a heap may give its items away: one item comes last. -/
def giveLast (r : α) : Shuffle α :=
  ⟨fun l => l.filter (· ≠ r) ++ l.filter (· = r), fun l => by
    simpa using List.filter_append_perm (fun x => decide (x ≠ r)) l⟩

/-- How a list is split, and in which order the items of one heap are offered to another. -/
inductive Split (α : Type*) where
  | leaf (give : Shuffle α)
  | node (place : ℕ) (left right : Split α) (give : Shuffle α)

variable (f k)

/-- The items of one heap are offered to another. -/
def merge (a b : MaxHeap α) (give : Shuffle α) : MaxHeap α :=
  offerAll f k a (give.order b.items)

/-- A heap for each part of the list, and one heap made of them all. -/
def Split.run : Split α → List α → MaxHeap α
  | leaf give, as => merge f k .empty (offerAll f k .empty as) give
  | node place left right give, as =>
    merge f k (left.run (as.take place)) (right.run (as.drop place)) give

variable {f k}

section Merge

variable {a b : MaxHeap α}

theorem size_merge (hk : 0 < k) (ha : a.size ≤ k) (give : Shuffle α) :
    (merge f k a b give).size = min k (a.size + b.size) := by
  rw [merge, size_offerAll hk ha, (give.perm b.items).length_eq, MaxHeap.size]
  rfl

theorem subperm_merge (hk : 0 < k) (give : Shuffle α) :
    (merge f k a b give).items.Subperm (a.items ++ b.items) :=
  (subperm_offerAll hk a _).trans ((give.perm b.items).append_left a.items).subperm

theorem le_countP_merge_of_near (hk : 0 < k) (hmono : Monotone f) {P : α → Bool}
    (hP : ∀ x y, f x ≤ f y → P y → P x) (give : Shuffle α) :
    min k (a.items.countP P + b.items.countP P) ≤ (merge f k a b give).items.countP P := by
  rw [← (give.perm b.items).countP_eq P]
  exact le_countP_offerAll_of_near hk hmono hP

/-- A small enough heap is merged into an empty one as it is. -/
theorem merge_empty_perm (hk : 0 < k) (hb : b.size ≤ k) (give : Shuffle α) :
    (merge f k MaxHeap.empty b give).items.Perm b.items := by
  refine (subperm_merge hk give).perm_of_length_le ?_
  have hsize := size_merge (f := f) (b := b) hk (MaxHeap.size_empty.trans_le k.zero_le) give
  rw [MaxHeap.size_empty, Nat.zero_add, min_eq_right hb] at hsize
  exact hsize.ge

end Merge

namespace Split

/-- The size of the result, however the items are split. -/
theorem size_run (hk : 0 < k) (t : Split α) (as : List α) :
    (t.run f k as).size = min k as.length := by
  induction t generalizing as with
  | leaf give =>
    rw [run, size_merge hk (by simp), size_offerAll_empty hk, MaxHeap.size_empty]
    omega
  | node place left right give ihl ihr =>
    rw [run, size_merge hk ((ihl _).trans_le (min_le_left _ _)), ihl, ihr, List.length_take,
      List.length_drop]
    omega

/-- The result has only items that were there. -/
theorem subperm_run (hk : 0 < k) (t : Split α) (as : List α) :
    (t.run f k as).items.Subperm as := by
  induction t generalizing as with
  | leaf give => exact (subperm_merge hk give).trans (subperm_offerAll hk MaxHeap.empty as)
  | node place left right give ihl ihr =>
    have hparts := (ihl (as.take place)).append (ihr (as.drop place))
    rw [List.take_append_drop] at hparts
    exact (subperm_merge hk give).trans hparts

/-- However the list is split, as many of the items up to a distance are kept as can be. -/
theorem le_countP_run_of_near (hk : 0 < k) (hmono : Monotone f) {P : α → Bool}
    (hP : ∀ x y, f x ≤ f y → P y → P x) (t : Split α) (as : List α) :
    min k (as.countP P) ≤ (t.run f k as).items.countP P := by
  induction t generalizing as with
  | leaf give =>
    have hheap : min k (as.countP P) ≤ (offerAll f k MaxHeap.empty as).items.countP P := by
      have hnear : min k ((MaxHeap.empty : MaxHeap α).items.countP P + as.countP P) ≤
          (offerAll f k MaxHeap.empty as).items.countP P := le_countP_offerAll_of_near hk hmono hP
      simpa using hnear
    have hsize := size_offerAll_empty (f := f) hk as
    rw [run, (merge_empty_perm hk (hsize.trans_le (min_le_left _ _)) give).countP_eq]
    exact hheap
  | node place left right give ihl ihr =>
    have hmerge := le_countP_merge_of_near (a := left.run f k (as.take place))
      (b := right.run f k (as.drop place)) hk hmono hP give
    have hcount : as.countP P = (as.take place).countP P + (as.drop place).countP P := by
      rw [← List.countP_append, List.take_append_drop]
    have hleft := ihl (as.take place)
    have hright := ihr (as.drop place)
    rw [run]
    omega

/-- The merge of two heaps where `r`, if the second one has it, is nearer than all of the first. -/
theorem le_countP_merge_of_first (hk : 0 < k) (hmono : Monotone f) {r : α} {a b : MaxHeap α}
    (hb : b.size ≤ k) (hacross : r ∈ b.items → ∀ x ∈ a.items, f r < f x)
    (hless : ∀ x ∈ b.items, x < r → f x < f r) (give : Shuffle α) :
    min k (a.items.countP (· ≤ r) + b.items.countP (· ≤ r)) ≤
      (merge f k a b give).items.countP (· ≤ r) := by
  rw [← (give.perm b.items).countP_eq]
  refine le_countP_offerAll hk hmono (fun x y hxy hy =>
    decide_eq_true (hxy.trans (of_decide_eq_true hy))) ?_
  intro pre x post hsplit hx hfull hnear
  have hmem : x ∈ b.items := (give.perm b.items).mem_iff.mp (by simp [hsplit])
  by_cases hxr : x = r
  · -- the heap cannot be full of items as near as `r`: they would all have come before it
    subst hxr
    have hall : ∀ y ∈ (offerAll f k a pre).items, decide (f y ≤ f x) = true := fun y hy =>
      decide_eq_true (hnear y hy)
    have hnone : a.items.countP (fun y => decide (f y ≤ f x)) = 0 :=
      List.countP_eq_zero.mpr fun y hy hle =>
        absurd (of_decide_eq_true hle) (not_le.mpr (hacross hmem y hy))
    have hsub := (subperm_offerAll (f := f) hk a pre).countP_le fun y => decide (f y ≤ f x)
    rw [List.countP_append, hnone, Nat.zero_add, List.countP_eq_length.mpr hall] at hsub
    have hpre := List.countP_le_length (p := fun y => decide (f y ≤ f x)) (l := pre)
    have hlength := congrArg List.length hsplit
    rw [(give.perm b.items).length_eq, List.length_append, List.length_cons] at hlength
    rw [MaxHeap.size] at hfull hb
    omega
  · intro y hy
    have hnearer := hless x hmem (lt_of_le_of_ne (of_decide_eq_true hx) hxr)
    refine decide_eq_true (not_lt.mp fun hry => ?_)
    exact absurd (hmono hry.le) (not_le.mpr ((hnear y hy).trans_lt hnearer))

/-- An item before which none is as near is kept if it can be, with what is nearer. -/
theorem le_countP_run_of_first (hk : 0 < k) (hmono : Monotone f) {r : α} (t : Split α)
    {as : List α} (horder : as.Pairwise fun x y => f x ≤ f y → x ≤ y)
    (hfirst : as.Pairwise fun x y => y = r → f r < f x) (hless : ∀ x ∈ as, x < r → f x < f r) :
    min k (as.countP (· ≤ r)) ≤ (t.run f k as).items.countP (· ≤ r) := by
  induction t generalizing as with
  | leaf give =>
    have hsize := size_offerAll_empty (f := f) hk as
    rw [run, (merge_empty_perm hk (hsize.trans_le (min_le_left _ _)) give).countP_eq]
    exact le_countP_offerAll_of_order hk hmono (fun x y hxy hy =>
      decide_eq_true (hxy.trans (of_decide_eq_true hy))) horder
  | node place left right give ihl ihr =>
    have hcount : as.countP (· ≤ r) =
        (as.take place).countP (· ≤ r) + (as.drop place).countP (· ≤ r) := by
      rw [← List.countP_append, List.take_append_drop]
    have hsplit := List.take_append_drop place as
    have hacross := (List.pairwise_append.mp (hsplit.symm ▸ hfirst)).2.2
    have hleft := ihl (horder.sublist (List.take_sublist place as))
      (hfirst.sublist (List.take_sublist place as)) fun x hx => hless x (List.mem_of_mem_take hx)
    have hright := ihr (horder.sublist (List.drop_sublist place as))
      (hfirst.sublist (List.drop_sublist place as)) fun x hx => hless x (List.mem_of_mem_drop hx)
    have hmeml := (subperm_run (f := f) hk left (as.take place)).subset
    have hmemr := (subperm_run (f := f) hk right (as.drop place)).subset
    have hmerge := le_countP_merge_of_first (a := left.run f k (as.take place)) hk hmono
      ((size_run hk right (as.drop place)).trans_le (min_le_left _ _))
      (fun hr x hx => hacross x (hmeml hx) r (hmemr hr) rfl)
      (fun x hx => hless x (List.mem_of_mem_drop (hmemr hx))) give
    rw [run]
    omega

/-- There is one more item as near as the `k`-th than there are up to it. -/
theorem lt_countP_near (hmono : Monotone f) {pre post : List α} {r e : α}
    (hnodup : (pre ++ r :: post).Nodup)
    (horder : (pre ++ r :: post).Pairwise fun x y => f x ≤ f y → x ≤ y) (he : e ∈ post)
    (her : f e = f r) : (pre ++ r :: post).countP (· ≤ r) <
      (pre ++ r :: post).countP fun x => f x ≤ f r := by
  have hne : ¬e ≤ r := by
    intro hle
    have htie := (List.pairwise_cons.mp (List.pairwise_append.mp horder).2.1).1 e he her.ge
    exact (List.nodup_cons.mp (List.nodup_append.mp hnodup).2.1).1 (le_antisymm hle htie ▸ he)
  have hmem : e ∈ pre ++ r :: post := by simp [he]
  obtain ⟨before, after, hsplit⟩ := List.append_of_mem hmem
  have hle (l : List α) : l.countP (· ≤ r) ≤ l.countP fun x => f x ≤ f r :=
    List.countP_mono_left fun x _ hx => decide_eq_true (hmono (of_decide_eq_true hx))
  have hbefore := hle before
  have hafter := hle after
  rw [hsplit, List.countP_append, List.countP_append,
    List.countP_cons_of_neg (by simpa using hne), List.countP_cons_of_pos (by simp [her])]
  omega

/-- A split of which the result has another item in the place of the `k`-th. -/
theorem exists_run_ne (hk : 0 < k) (hmono : Monotone f) {pre post : List α} {s r e : α}
    (hnodup : (pre ++ r :: post).Nodup)
    (horder : (pre ++ r :: post).Pairwise fun x y => f x ≤ f y → x ≤ y)
    (hkth : (pre ++ r :: post).countP (· ≤ r) = k) (hs : s ∈ pre) (hsr : f s ≤ f r) (he : e ∈ post)
    (her : f e = f r) : ∃ t : Split α, (t.run f k (pre ++ r :: post)).items ≠
      nearest k (pre ++ r :: post) := by
  obtain ⟨-, hright, hdisjoint⟩ := List.nodup_append.mp hnodup
  let left := (leaf (.same _)).run f k pre
  let right := (leaf (.same _)).run f k (r :: post)
  let others := offerAll f k left (right.items.filter (· ≠ r))
  refine ⟨node pre.length (leaf (.same _)) (leaf (.same _)) (giveLast r), fun heq => ?_⟩
  have hrun : ((node pre.length (leaf (.same _)) (leaf (.same _)) (giveLast r)).run f k
      (pre ++ r :: post)) = offerAll f k others (right.items.filter (· = r)) := by
    rw [run, List.take_left, List.drop_left, merge]
    exact offerAll_append f k _ _ _
  have hsubl : left.items.Subperm pre := subperm_run hk _ pre
  have hsubr : right.items.Subperm (r :: post) := subperm_run hk _ (r :: post)
  have hP : ∀ x y, f x ≤ f y → decide (f y ≤ f r) = true → decide (f x ≤ f r) = true :=
    fun x y hxy hy => decide_eq_true (hxy.trans (of_decide_eq_true hy))
  -- the heap is full of items as near as `r` before `r` is offered
  have hcount : k ≤ others.items.countP fun x => f x ≤ f r := by
    have hl : min k (pre.countP fun x => f x ≤ f r) ≤ left.items.countP fun x => f x ≤ f r :=
      le_countP_run_of_near hk hmono hP _ pre
    have hr : min k ((r :: post).countP fun x => f x ≤ f r) ≤
        right.items.countP fun x => f x ≤ f r :=
      le_countP_run_of_near hk hmono hP _ (r :: post)
    have hothers : min k ((left.items.countP fun x => f x ≤ f r) +
        (right.items.filter (· ≠ r)).countP fun x => f x ≤ f r) ≤
          others.items.countP fun x => f x ≤ f r :=
      le_countP_offerAll_of_near hk hmono hP
    have hone : (right.items.filter (· = r)).length ≤ 1 := by
      rw [← List.countP_eq_length_filter]
      exact (hsubr.countP_le _).trans (List.nodup_iff_count_le_one.mp hright r)
    have hparts := List.countP_eq_countP_filter_add right.items (fun x => f x ≤ f r) (· = r)
    have hsame := List.countP_le_length (p := fun x => decide (f x ≤ f r))
      (l := right.items.filter (· = r))
    have hpos : 0 < pre.countP fun x => f x ≤ f r :=
      List.countP_pos_iff.mpr ⟨s, hs, decide_eq_true hsr⟩
    have hmore := lt_countP_near hmono hnodup horder he her
    rw [hkth, List.countP_append] at hmore
    simp only [← decide_not] at hparts
    simp only [ne_eq] at hothers
    omega
  have hleft : left.size ≤ k := (size_run hk _ pre).trans_le (min_le_left _ _)
  have hsize : others.size ≤ k := (size_offerAll hk hleft _).trans_le (min_le_left _ _)
  have hnear : ∀ x ∈ others.items, f x ≤ f r := by
    have hall := List.countP_eq_length.mp (le_antisymm List.countP_le_length (hsize.trans hcount))
    exact fun x hx => of_decide_eq_true (hall x hx)
  have hrefused : offerAll f k others (right.items.filter (· = r)) = others := by
    refine offerAll_of_far hk (hcount.trans List.countP_le_length) fun a ha x hx => ?_
    rw [of_decide_eq_true (List.mem_filter.mp ha).2]
    exact hnear x hx
  have hr : r ∈ nearest k (pre ++ r :: post) :=
    (nearest_perm_filter hnodup (by simp) hkth).mem_iff.mpr (by simp)
  rw [← heq, hrun, hrefused] at hr
  rcases List.mem_append.mp ((subperm_offerAll hk left _).subset hr) with hl | hother
  · exact hdisjoint r (hsubl.subset hl) r List.mem_cons_self rfl
  · exact absurd rfl (of_decide_eq_true (List.mem_filter.mp hother).2)

/-- **When every split gives the nearest items.** Not, if the `k`-th item has another as near to it
on either side. -/
theorem run_eq_nearest_iff (hk : 0 < k) (hmono : Monotone f) {as : List α} (hnodup : as.Nodup)
    (hle : k ≤ as.length) (horder : as.Pairwise fun x y => f x ≤ f y → x ≤ y) :
    (∀ t : Split α, (t.run f k as).items = nearest k as) ↔
      ¬∃ s r e, [s, r, e].Sublist as ∧ f s ≤ f r ∧ f e = f r ∧ as.countP (· ≤ r) = k := by
  constructor
  · rintro hall ⟨s, r, e, hsub, hsr, her, hkth⟩
    obtain ⟨before, rest, rfl, hs, hrest⟩ := List.cons_sublist_iff.mp hsub
    obtain ⟨between, post, rfl, hr, hpost⟩ := List.cons_sublist_iff.mp hrest
    obtain ⟨pre, after, rfl⟩ := List.append_of_mem hr
    have hsplit : before ++ (pre ++ r :: after ++ post) =
        (before ++ pre) ++ r :: (after ++ post) := by simp
    rw [hsplit] at hall hnodup horder hkth
    obtain ⟨t, hne⟩ := exists_run_ne hk hmono hnodup horder hkth (s := s) (e := e) (by simp [hs])
      hsr (by simp [List.singleton_sublist.mp hpost]) her
    exact hne (hall t)
  · intro hno t
    obtain ⟨r, hr, hkth⟩ := exists_kth hnodup hk hle
    obtain ⟨pre, post, rfl⟩ := List.append_of_mem hr
    have hsize : (t.run f k (pre ++ r :: post)).size ≤ k :=
      (size_run hk t _).trans_le (min_le_left _ _)
    refine items_eq_nearest hnodup hr hkth (subperm_run hk t _) hsize ?_
    suffices hcount : min k ((pre ++ r :: post).countP (· ≤ r)) ≤
        (t.run f k (pre ++ r :: post)).items.countP (· ≤ r) by rwa [hkth, min_self] at hcount
    obtain ⟨-, hafter, hacross⟩ := List.pairwise_append.mp horder
    by_cases htie : ∃ e ∈ post, f e = f r
    · -- then `r` is the first that is as near
      obtain ⟨e, he, her⟩ := htie
      have hfirst : ∀ x ∈ pre, f r < f x := by
        refine fun x hx => not_le.mp fun hle => hno ⟨x, r, e, ?_, hle, her, hkth⟩
        exact (List.singleton_sublist.mpr hx).append
          ((List.singleton_sublist.mpr he).cons_cons r)
      have hright := (List.nodup_cons.mp (List.nodup_append.mp hnodup).2.1).1
      refine le_countP_run_of_first hk hmono t horder (List.pairwise_append.mpr ⟨?_, ?_, ?_⟩) ?_
      · exact List.pairwise_of_forall_mem_list fun x hx _ _ _ => hfirst x hx
      · exact (List.pairwise_cons.mpr ⟨fun y hy hyr => absurd (hyr ▸ hy) hright,
          List.pairwise_of_forall_mem_list fun _ _ y hy hyr => absurd (hyr ▸ hy) hright⟩)
      · exact fun x hx _ _ _ => hfirst x hx
      · intro x hx hlt
        rcases List.mem_append.mp hx with hx | hx
        · exact absurd (hmono hlt.le) (not_le.mpr (hfirst x hx))
        · refine not_le.mp fun hle => ?_
          rcases List.mem_cons.mp hx with rfl | hx
          · exact lt_irrefl x hlt
          · exact not_le.mpr hlt ((List.pairwise_cons.mp hafter).1 x hx hle)
    · -- then the items up to `r` are those as near as it
      have hiff : ∀ x ∈ pre ++ r :: post, (decide (f x ≤ f r) = true ↔ decide (x ≤ r) = true) := by
        intro x hx
        rw [decide_eq_true_iff, decide_eq_true_iff]
        refine ⟨fun hle => ?_, fun hle => hmono hle⟩
        rcases List.mem_append.mp hx with hx | hx
        · exact hacross x hx r List.mem_cons_self hle
        · rcases List.mem_cons.mp hx with rfl | hx
          · exact le_rfl
          · refine not_lt.mp fun hlt => htie ⟨x, hx, le_antisymm hle (hmono hlt.le)⟩
      have hnear := le_countP_run_of_near (P := fun x => f x ≤ f r) hk hmono
        (fun x y hxy hy => decide_eq_true (hxy.trans (of_decide_eq_true hy))) t (pre ++ r :: post)
      rwa [List.countP_congr hiff, List.countP_congr fun x hx =>
        hiff x ((subperm_run hk t _).subset hx)] at hnear

end Split

end BoundedHeap
