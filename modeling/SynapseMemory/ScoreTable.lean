import Mathlib

/-!
# Score tables and their best entries

A score table is a list of `(key, score)` pairs. Two things are done with one:

* **tally** — a stream of contributions is added up per key, a key entering the table
  with its first contribution;
* **best** — the table is sorted by descending score and cut after `k` entries.

The second half compares the best entries of an exact table with those of a table that
underestimates it. The scores of the best entries depend on the table only through how many
entries **reach** each threshold, so the comparison is a matter of counting: the cheap table
answers exactly when every entry it gets wrong is matched by `k` entries it gets right.
-/

namespace ScoreTable

variable {α β : Type*}

/-! ## Adding contributions up -/

section Tally

variable [DecidableEq α] [AddCommMonoid β]

/-- Add `c` to the entry of `d`, which starts from zero. -/
def add (d : α) (c : β) : List (α × β) → List (α × β)
  | [] => [(d, 0 + c)]
  | (e, s) :: rest => if e = d then (e, s + c) :: rest else (e, s) :: add d c rest

/-- The table of a stream of contributions. -/
def tally (cs : List (α × β)) : List (α × β) := cs.foldl (fun t c => add c.1 c.2 t) []

/-- What a stream of contributions gives to one key. -/
def total (d : α) (cs : List (α × β)) : β := ((cs.filter (fun c => c.1 = d)).map Prod.snd).sum

@[simp] theorem total_nil (d : α) : total d ([] : List (α × β)) = 0 := rfl

theorem total_cons (d : α) (c : α × β) (cs : List (α × β)) :
    total d (c :: cs) = (if c.1 = d then c.2 else 0) + total d cs := by
  by_cases hc : c.1 = d
  · simp [total, hc]
  · simp [total, hc]

/-- The total of two parts. -/
theorem total_append (d : α) (cs₁ cs₂ : List (α × β)) :
    total d (cs₁ ++ cs₂) = total d cs₁ + total d cs₂ := by
  simp [total]

/-- The order of the contributions does not matter. -/
theorem total_perm {d : α} {cs₁ cs₂ : List (α × β)} (h : cs₁.Perm cs₂) :
    total d cs₁ = total d cs₂ :=
  ((h.filter _).map _).sum_eq

theorem total_eq_zero {d : α} {cs : List (α × β)} (h : ∀ c ∈ cs, c.1 = d → c.2 = 0) :
    total d cs = 0 := by
  refine List.sum_eq_zero fun s hs => ?_
  obtain ⟨c, hc, rfl⟩ := List.mem_map.mp hs
  obtain ⟨hc, hd⟩ := List.mem_filter.mp hc
  exact h c hc (of_decide_eq_true hd)

theorem total_flatMap {γ : Type*} (d : α) (l : List γ) (f : γ → List (α × β)) :
    total d (l.flatMap f) = (l.map fun a => total d (f a)).sum := by
  induction l with
  | nil => rfl
  | cons a rest ih => rw [List.flatMap_cons, total_append, ih, List.map_cons, List.sum_cons]

/-- Adding to a document that has a score adds no key. -/
theorem keys_add (d : α) (c : β) (t : List (α × β)) :
    (add d c t).map Prod.fst =
      if d ∈ t.map Prod.fst then t.map Prod.fst else t.map Prod.fst ++ [d] := by
  induction t with
  | nil => simp [add]
  | cons p rest ih =>
    obtain ⟨e, s⟩ := p
    by_cases he : e = d
    · simp [add, he]
    · rw [add, if_neg he, List.map_cons, ih]
      by_cases hd : d ∈ rest.map Prod.fst
      · simp [hd]
      · simp [hd, Ne.symm he]

theorem nodup_keys_add {d : α} {c : β} {t : List (α × β)} (h : (t.map Prod.fst).Nodup) :
    ((add d c t).map Prod.fst).Nodup := by
  rw [keys_add]
  split
  · exact h
  · rename_i hd
    exact List.nodup_append.mpr ⟨h, List.nodup_singleton d, by
      intro a ha b hb
      rw [List.mem_singleton] at hb
      rintro rfl
      exact hd (hb ▸ ha)⟩

/-- The scores after a contribution was added. -/
theorem mem_add {d e : α} {c s : β} {t : List (α × β)} (h : (t.map Prod.fst).Nodup) :
    (e, s) ∈ add d c t ↔ (e ≠ d ∧ (e, s) ∈ t) ∨
      (e = d ∧ ((∃ s₀, (d, s₀) ∈ t ∧ s = s₀ + c) ∨ (d ∉ t.map Prod.fst ∧ s = c))) := by
  induction t with
  | nil => simp [add, and_comm]
  | cons p rest ih =>
    obtain ⟨e', s'⟩ := p
    obtain ⟨hfresh, hrest⟩ := List.nodup_cons.mp h
    by_cases he : e' = d
    · subst he
      have hne : ∀ s, (e', s) ∉ rest := fun s hs => hfresh (List.mem_map.mpr ⟨_, hs, rfl⟩)
      rw [add, if_pos rfl]
      by_cases hee : e = e'
      · subst hee
        simp [hne]
      · simp [hee]
    · rw [add, if_neg he, List.mem_cons, ih hrest]
      by_cases hee : e = d
      · subst hee
        simp [Ne.symm he]
      · simp [hee]

/-- **The table of a stream** holds each key that contributed, once, with its total. -/
theorem tally_spec (cs : List (α × β)) :
    ((tally cs).map Prod.fst).Nodup ∧
      ∀ d s, (d, s) ∈ tally cs ↔ d ∈ cs.map Prod.fst ∧ s = total d cs := by
  induction cs using List.reverseRecOn with
  | nil => simp [tally]
  | append_singleton cs c ih =>
    obtain ⟨hnodup, hmem⟩ := ih
    have hstep : tally (cs ++ [c]) = add c.1 c.2 (tally cs) := by
      simp [tally]
    rw [hstep]
    refine ⟨nodup_keys_add hnodup, fun d s => ?_⟩
    have hkey : ∀ x, x ∈ (tally cs).map Prod.fst ↔ x ∈ cs.map Prod.fst := by
      intro x
      constructor
      · intro hx
        obtain ⟨⟨y, s⟩, hy, rfl⟩ := List.mem_map.mp hx
        exact ((hmem y s).mp hy).1
      · intro hx
        exact List.mem_map.mpr ⟨_, (hmem x _).mpr ⟨hx, rfl⟩, rfl⟩
    rw [mem_add hnodup, hkey, total_append]
    by_cases hd : d = c.1
    · subst hd
      by_cases hold : c.1 ∈ cs.map Prod.fst
      · simp [hmem, hold, total]
      · have hzero : total c.1 cs = 0 :=
          total_eq_zero fun c' hc' heq => absurd (heq ▸ List.mem_map_of_mem hc') hold
        simp only [List.map_append, List.mem_append, hold, hzero]
        simp [hmem, hold, total]
    · simp [hd, hmem, total, Ne.symm hd]

theorem nodup_keys_tally (cs : List (α × β)) : ((tally cs).map Prod.fst).Nodup :=
  (tally_spec cs).1

/-- A score is the total of what was contributed. -/
theorem mem_tally {cs : List (α × β)} {d : α} {s : β} :
    (d, s) ∈ tally cs ↔ d ∈ cs.map Prod.fst ∧ s = total d cs :=
  (tally_spec cs).2 d s

/-- What is added up is in the table. -/
theorem sum_add (d : α) (c : β) (t : List (α × β)) :
    ((add d c t).map Prod.snd).sum = (t.map Prod.snd).sum + c := by
  induction t with
  | nil => simp [add]
  | cons p rest ih =>
    obtain ⟨e, s⟩ := p
    rw [add]
    split
    · simp only [List.map_cons, List.sum_cons]
      exact add_right_comm s c _
    · simp only [List.map_cons, List.sum_cons, ih]
      exact (add_assoc s _ c).symm

/-- The sum of all scores is that of all contributions. -/
theorem sum_tally (cs : List (α × β)) : ((tally cs).map Prod.snd).sum = (cs.map Prod.snd).sum := by
  induction cs using List.reverseRecOn with
  | nil => rfl
  | append_singleton cs c ih =>
    have hstep : tally (cs ++ [c]) = add c.1 c.2 (tally cs) := by
      simp [tally]
    rw [hstep, sum_add, ih]
    simp

/-- The order of the contributions does not matter. -/
theorem tally_perm {cs cs' : List (α × β)} (h : cs.Perm cs') : (tally cs).Perm (tally cs') := by
  have hnodup := (nodup_keys_tally cs).of_map
  have hnodup' := (nodup_keys_tally cs').of_map
  refine (List.perm_ext_iff_of_nodup hnodup hnodup').mpr ?_
  rintro ⟨d, s⟩
  rw [mem_tally, mem_tally, total_perm h, (h.map Prod.fst).mem_iff]

end Tally

/-! ## Sorting and cutting -/

section Best

variable [LinearOrder β]

/-- The table by descending score. -/
def ranked (t : List (α × β)) : List (α × β) := t.insertionSort (fun a b => b.2 ≤ a.2)

/-- The `k` best entries of a table. -/
def best (k : ℕ) (t : List (α × β)) : List (α × β) := (ranked t).take k

/-- How many entries of a table score at least `θ`. -/
def reach (t : List (α × β)) (θ : β) : ℕ := t.countP (fun p => θ ≤ p.2)

theorem ranked_perm (t : List (α × β)) : (ranked t).Perm t := List.perm_insertionSort _ t

theorem ranked_pairwise (t : List (α × β)) : (ranked t).Pairwise (fun a b => b.2 ≤ a.2) := by
  have : Std.Total (fun a b : α × β => b.2 ≤ a.2) := ⟨fun a b => le_total b.2 a.2⟩
  have : IsTrans (α × β) (fun a b => b.2 ≤ a.2) := ⟨fun _ _ _ h₁ h₂ => le_trans h₂ h₁⟩
  exact List.pairwise_insertionSort _ t

/-- The best entries are entries. -/
theorem mem_of_mem_best {k : ℕ} {t : List (α × β)} {p : α × β} (h : p ∈ best k t) : p ∈ t :=
  (ranked_perm t).mem_iff.mp (List.mem_of_mem_take h)

/-- As many as asked for, if there are so many. -/
theorem length_best (k : ℕ) (t : List (α × β)) : (best k t).length = min k t.length := by
  rw [best, List.length_take, (ranked_perm t).length_eq]

theorem nodup_best {k : ℕ} {t : List (α × β)} (h : (t.map Prod.fst).Nodup) : (best k t).Nodup :=
  ((ranked_perm t).nodup_iff.mpr (List.Nodup.of_map _ h)).sublist (List.take_sublist k _)

/-- Cutting a descending list keeps the entries above a threshold before all others. -/
theorem countP_take_of_pairwise {k : ℕ} {l : List (α × β)} {θ : β}
    (h : l.Pairwise (fun a b => b.2 ≤ a.2)) :
    (l.take k).countP (fun p => θ ≤ p.2) = min k (l.countP (fun p => θ ≤ p.2)) := by
  induction l generalizing k with
  | nil => simp
  | cons p rest ih =>
    obtain ⟨hp, hrest⟩ := List.pairwise_cons.mp h
    cases k with
    | zero => simp
    | succ k =>
      rw [List.take_succ_cons, List.countP_cons, List.countP_cons, ih hrest]
      by_cases hθ : θ ≤ p.2
      · simp [hθ]
      · have hnone : rest.countP (fun p => θ ≤ p.2) = 0 := by
          rw [List.countP_eq_zero]
          intro q hq hle
          exact hθ ((of_decide_eq_true hle).trans (hp q hq))
        simp [hθ, hnone]

/-- How many of the best reach a score. -/
theorem reach_best (k : ℕ) (t : List (α × β)) (θ : β) :
    reach (best k t) θ = min k (reach t θ) := by
  rw [reach, best, countP_take_of_pairwise (ranked_pairwise t), (ranked_perm t).countP_eq]
  rfl

/-- A threshold that an entry of a descending list reaches is reached by its head. -/
theorem le_head_of_countP_pos {l : List β} {b θ : β} (hb : ∀ x ∈ l, x ≤ b)
    (hpos : 0 < (b :: l).countP (θ ≤ ·)) : θ ≤ b := by
  obtain ⟨x, hx, hle⟩ := List.countP_pos_iff.mp hpos
  rcases List.mem_cons.mp hx with rfl | hx
  · exact of_decide_eq_true hle
  · exact (of_decide_eq_true hle).trans (hb x hx)

/-- Two descending score lists with as many entries above every threshold are equal. -/
theorem eq_of_countP_eq {l₁ l₂ : List β} (h₁ : l₁.Pairwise (fun a b => b ≤ a))
    (h₂ : l₂.Pairwise (fun a b => b ≤ a))
    (h : ∀ θ : β, l₁.countP (θ ≤ ·) = l₂.countP (θ ≤ ·)) : l₁ = l₂ := by
  induction l₁ generalizing l₂ with
  | nil =>
    cases l₂ with
    | nil => rfl
    | cons b l₂ =>
      have := h b
      simp at this
  | cons a l₁ ih =>
    cases l₂ with
    | nil =>
      have := h a
      simp at this
    | cons b l₂ =>
      obtain ⟨ha, hl₁⟩ := List.pairwise_cons.mp h₁
      obtain ⟨hb, hl₂⟩ := List.pairwise_cons.mp h₂
      -- the largest entries agree: each list reaches its own head
      have hab : a ≤ b := by
        refine le_head_of_countP_pos hb ?_
        rw [← h a]
        simp
      have hba : b ≤ a := by
        refine le_head_of_countP_pos ha ?_
        rw [h b]
        simp
      obtain rfl := le_antisymm hab hba
      rw [ih hl₁ hl₂ fun θ => ?_]
      have := h θ
      rw [List.countP_cons, List.countP_cons] at this
      omega

/-- **The best scores are a matter of counting.** -/
theorem best_scores_eq_iff (k : ℕ) (t₁ t₂ : List (α × β)) :
    (best k t₁).map Prod.snd = (best k t₂).map Prod.snd ↔
      ∀ θ, min k (reach t₁ θ) = min k (reach t₂ θ) := by
  have hreach : ∀ (t : List (α × β)) θ,
      ((best k t).map Prod.snd).countP (θ ≤ ·) = min k (reach t θ) := by
    intro t θ
    rw [List.countP_map, ← reach_best]
    rfl
  have hdesc : ∀ t : List (α × β), ((best k t).map Prod.snd).Pairwise (fun a b => b ≤ a) := by
    intro t
    rw [List.pairwise_map]
    exact (ranked_pairwise t).sublist (List.take_sublist k _)
  constructor
  · intro h θ
    rw [← hreach t₁, ← hreach t₂, h]
  · intro h
    refine eq_of_countP_eq (hdesc t₁) (hdesc t₂) fun θ => ?_
    rw [hreach, hreach, h θ]

/-! ## An exact table and one that underestimates it -/

/-- Every entry of `t` is an entry of the exact table `x`, or falls short of one. -/
def Underestimates (t x : List (α × β)) : Prop :=
  ∀ p ∈ t, ∃ s, (p.1, s) ∈ x ∧ p.2 ≤ s

variable {k : ℕ} {t x : List (α × β)}

/-- Entries of the exact table whose scores are its best scores leave out no better entry. -/
theorem mem_of_best_scores {r : List (α × β)} (hr : r.Nodup) (hsub : ∀ p ∈ r, p ∈ x)
    (hscores : r.map Prod.snd = (best k x).map Prod.snd) {p q : α × β} (hp : p ∈ x) (hq : q ∈ r)
    (hlt : q.2 < p.2) : p ∈ r := by
  have hlen : r.length ≤ k := by
    have := congrArg List.length hscores
    rw [List.length_map, List.length_map, length_best] at this
    omega
  have hcount : reach r p.2 = min k (reach x p.2) := by
    have := congrArg (List.countP (p.2 ≤ ·)) hscores
    rw [List.countP_map, List.countP_map] at this
    rw [← reach_best]
    exact this
  -- `q` stays below the threshold, so the cut at `k` is not what bounds the count
  have hshort : reach r p.2 < r.length := by
    refine List.countP_lt_length_iff.mpr ⟨q, hq, ?_⟩
    simpa using hlt
  have hall : reach x p.2 = reach r p.2 := by omega
  have hperm : (r.filter (fun a => p.2 ≤ a.2)).Perm (x.filter (fun a => p.2 ≤ a.2)) := by
    refine List.Subperm.perm_of_length_le (List.subperm_of_subset (hr.filter _) ?_) ?_
    · intro a ha
      obtain ⟨har, hle⟩ := List.mem_filter.mp ha
      exact List.mem_filter.mpr ⟨hsub a har, hle⟩
    · rw [← List.countP_eq_length_filter, ← List.countP_eq_length_filter]
      exact hall.le
  have hmem : p ∈ x.filter (fun a => p.2 ≤ a.2) := List.mem_filter.mpr ⟨hp, by simp⟩
  exact (List.mem_filter.mp (hperm.mem_iff.mpr hmem)).1

/-- An entry among the `k` best has fewer than `k` entries above it. -/
theorem reach_lt_of_mem_best {p : α × β} (h : p ∈ best k t) {θ : β} (hθ : p.2 < θ) :
    reach t θ < k := by
  have hshort : reach (best k t) θ < (best k t).length := by
    refine List.countP_lt_length_iff.mpr ⟨p, h, ?_⟩
    simpa using hθ
  rw [reach_best, length_best] at hshort
  omega

/-- Underestimated scores reach less. -/
theorem reach_le_of_underestimates (ht : (t.map Prod.fst).Nodup) (hle : Underestimates t x)
    (θ : β) : reach t θ ≤ reach x θ := by
  have hsub : (t.filter (fun p => θ ≤ p.2)).map Prod.fst ⊆
      (x.filter (fun p => θ ≤ p.2)).map Prod.fst := by
    intro d hd
    obtain ⟨p, hp, rfl⟩ := List.mem_map.mp hd
    obtain ⟨hp, hpθ⟩ := List.mem_filter.mp hp
    obtain ⟨s, hs, hps⟩ := hle p hp
    refine List.mem_map.mpr ⟨(p.1, s), List.mem_filter.mpr ⟨hs, ?_⟩, rfl⟩
    exact decide_eq_true ((of_decide_eq_true hpθ).trans hps)
  have hnodup : ((t.filter (fun p => θ ≤ p.2)).map Prod.fst).Nodup :=
    ht.sublist (List.filter_sublist.map _)
  have hlen := (List.subperm_of_subset hnodup hsub).length_le
  rw [List.length_map, List.length_map] at hlen
  rwa [reach, reach, List.countP_eq_length_filter, List.countP_eq_length_filter]

variable [DecidableEq α]

/-- The entries the two tables share. -/
def kept (t x : List (α × β)) : List (α × β) := t.filter (· ∈ x)

theorem reach_kept_le (θ : β) : reach (kept t x) θ ≤ reach t θ :=
  List.Sublist.countP_le List.filter_sublist

theorem reach_kept_mono {θ θ' : β} (hθ : θ ≤ θ') : reach (kept t x) θ' ≤ reach (kept t x) θ :=
  List.countP_mono_left fun _ _ hq => decide_eq_true (hθ.trans (of_decide_eq_true hq))

/-- Best entries that are exact, with the best scores: what the table lacks is matched by all `k`
of them. -/
theorem le_reach_of_best_exact (ht : (t.map Prod.fst).Nodup) (hsub : ∀ p ∈ best k t, p ∈ x)
    (hscores : (best k t).map Prod.snd = (best k x).map Prod.snd) {p : α × β} (hp : p ∈ x)
    (hpt : p ∉ t) : k ≤ reach (kept t x) p.2 := by
  have hlen : min k t.length = min k x.length := by
    have := congrArg List.length hscores
    rwa [List.length_map, List.length_map, length_best, length_best] at this
  have hfull : k ≤ t.length := by
    by_contra hshort
    -- everything was returned, so nothing is missing
    have hperm : (best k t).Perm x := by
      refine List.Subperm.perm_of_length_le (List.subperm_of_subset (nodup_best ht) hsub) ?_
      rw [length_best]
      omega
    exact hpt (mem_of_mem_best (hperm.mem_iff.mpr hp))
  have hreach : ∀ q ∈ best k t, p.2 ≤ q.2 := by
    intro q hq
    by_contra hlt
    exact hpt (mem_of_mem_best
      (mem_of_best_scores (nodup_best ht) hsub hscores hp hq (not_le.mp hlt)))
  calc k = (best k t).length := by rw [length_best, min_eq_left hfull]
    _ = reach (best k t) p.2 :=
      (List.countP_eq_length.mpr fun q hq => decide_eq_true (hreach q hq)).symm
    _ ≤ reach (kept t x) p.2 := by
      refine List.Subperm.countP_le _ (List.subperm_of_subset (nodup_best ht) fun q hq => ?_)
      exact List.mem_filter.mpr ⟨mem_of_mem_best hq, by simpa using hsub q hq⟩

/-- An entry that falls short has `k` exact ones above it, so it is not among the best. -/
theorem mem_of_mem_best_of_matched (ht : (t.map Prod.fst).Nodup) (hle : Underestimates t x)
    (h : ∀ p ∈ x, p ∉ t → k ≤ reach (kept t x) p.2) {p : α × β} (hp : p ∈ best k t) : p ∈ x := by
  by_contra hpx
  obtain ⟨s, hs, hps⟩ := hle p (mem_of_mem_best hp)
  have hne : p.2 ≠ s := by
    rintro rfl
    exact hpx hs
  have hst : (p.1, s) ∉ t := by
    intro hmem
    have := List.inj_on_of_nodup_map ht hmem (mem_of_mem_best hp) rfl
    exact hne (congrArg Prod.snd this).symm
  have hk : k ≤ reach (kept t x) s := h _ hs hst
  have hlt := reach_lt_of_mem_best hp (lt_of_le_of_ne hps hne)
  have := reach_kept_le (t := t) (x := x) s
  omega

/-- Every threshold is reached as often, up to `k`. -/
theorem best_scores_of_matched (ht : (t.map Prod.fst).Nodup) (hx : (x.map Prod.fst).Nodup)
    (hle : Underestimates t x) (h : ∀ p ∈ x, p ∉ t → k ≤ reach (kept t x) p.2) :
    (best k t).map Prod.snd = (best k x).map Prod.snd := by
  rw [best_scores_eq_iff]
  intro θ
  have h₁ := reach_kept_le (t := t) (x := x) θ
  have h₂ := reach_le_of_underestimates ht hle θ
  by_cases hmiss : ∃ p ∈ x, p ∉ t ∧ θ ≤ p.2
  · obtain ⟨p, hp, hpt, hθ⟩ := hmiss
    have hk := h p hp hpt
    have hmono := reach_kept_mono (t := t) (x := x) hθ
    omega
  · have h₃ : reach x θ ≤ reach t θ := by
      rw [reach, reach, List.countP_eq_length_filter, List.countP_eq_length_filter]
      refine (List.subperm_of_subset ((List.Nodup.of_map _ hx).filter _) fun p hp => ?_).length_le
      obtain ⟨hp, hθ⟩ := List.mem_filter.mp hp
      refine List.mem_filter.mpr ⟨?_, hθ⟩
      by_contra hpt
      exact hmiss ⟨p, hp, hpt, of_decide_eq_true hθ⟩
    omega

/-- **When an underestimate answers exactly**: its best entries are exact and carry the best
scores of the exact table if and only if every entry it lacks is matched by `k` entries that
it shares with the exact table. -/
theorem best_exact_iff (ht : (t.map Prod.fst).Nodup) (hx : (x.map Prod.fst).Nodup)
    (hle : Underestimates t x) :
    ((∀ p ∈ best k t, p ∈ x) ∧ (best k t).map Prod.snd = (best k x).map Prod.snd) ↔
      ∀ p ∈ x, p ∉ t → k ≤ reach (kept t x) p.2 := by
  constructor
  · rintro ⟨hsub, hscores⟩ p hp hpt
    exact le_reach_of_best_exact ht hsub hscores hp hpt
  · intro h
    exact ⟨fun p hp => mem_of_mem_best_of_matched ht hle h hp, best_scores_of_matched ht hx hle h⟩

end Best

end ScoreTable
