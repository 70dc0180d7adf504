import Mathlib

/-!
# The layers of a graph around a point

For a relation and a start, `Within n` is what can be reached from the start in at most `n` steps,
and `Layer n` what is reached in `n` steps and not in fewer. Each layer is what the one before leads
to, less what was reached already (`layer_succ_iff`), which is how a breadth-first search computes
them.

The layers depend only on the steps between different points that can be reached (`layer_congr`).
-/

namespace Layers

variable {α : Type*} (R : α → α → Prop) (s : α)

/-- Reached in at most `n` steps. -/
def Within : ℕ → α → Prop
  | 0, v => v = s
  | n + 1, v => Within n v ∨ ∃ u, Within n u ∧ R u v

/-- Reached in `n` steps and not in fewer. -/
def Layer (n : ℕ) (v : α) : Prop := Within R s n v ∧ ∀ m < n, ¬Within R s m v

variable {R s}

theorem Within.mono {m n : ℕ} (hle : m ≤ n) {v : α} (h : Within R s m v) : Within R s n v := by
  induction hle with
  | refl => exact h
  | step _ ih => exact .inl ih

theorem layer_zero {v : α} : Layer R s 0 v ↔ v = s :=
  ⟨And.left, fun h => ⟨h, nofun⟩⟩

/-- What is reached lies in a layer. -/
theorem within_iff_layer {n : ℕ} {v : α} : Within R s n v ↔ ∃ m ≤ n, Layer R s m v := by
  refine ⟨fun h => ?_, fun ⟨m, hle, hlayer⟩ => hlayer.1.mono hle⟩
  induction n with
  | zero => exact ⟨0, le_refl 0, h, nofun⟩
  | succ n ih =>
    by_cases hbefore : Within R s n v
    · obtain ⟨m, hle, hlayer⟩ := ih hbefore
      exact ⟨m, hle.trans (Nat.le_succ n), hlayer⟩
    · refine ⟨n + 1, le_refl _, h, fun m hm hreached => ?_⟩
      exact hbefore (hreached.mono (Nat.le_of_lt_succ hm))

/-- It is enough to look at the steps from the last layer. -/
theorem within_succ_iff {n : ℕ} {v : α} :
    Within R s (n + 1) v ↔ Within R s n v ∨ ∃ u, Layer R s n u ∧ R u v := by
  refine ⟨?_, ?_⟩
  · rintro (hv | ⟨u, hu, huv⟩)
    · exact .inl hv
    · obtain ⟨m, hle, hlayer⟩ := within_iff_layer.mp hu
      rcases hle.lt_or_eq with hlt | rfl
      · -- a step from an earlier layer leads to what was reached before
        have hnext : Within R s (m + 1) v := .inr ⟨u, hlayer.1, huv⟩
        exact .inl (hnext.mono hlt)
      · exact .inr ⟨u, hlayer, huv⟩
  · rintro (hv | ⟨u, hu, huv⟩)
    · exact .inl hv
    · exact .inr ⟨u, hu.1, huv⟩

/-- **The next layer.** -/
theorem layer_succ_iff {n : ℕ} {v : α} :
    Layer R s (n + 1) v ↔ ¬Within R s n v ∧ ∃ u, Layer R s n u ∧ R u v := by
  refine ⟨?_, ?_⟩
  · rintro ⟨hreached, hfirst⟩
    have hnew : ¬Within R s n v := hfirst n (Nat.lt_succ_self n)
    exact ⟨hnew, (within_succ_iff.mp hreached).resolve_left hnew⟩
  · rintro ⟨hnew, hstep⟩
    refine ⟨within_succ_iff.mpr (.inr hstep), fun m hm hreached => hnew ?_⟩
    exact hreached.mono (Nat.le_of_lt_succ hm)

theorem layer_one {v : α} : Layer R s 1 v ↔ v ≠ s ∧ R s v := by
  rw [layer_succ_iff]
  simp only [layer_zero, exists_eq_left]
  rfl

/-- Two relations that have the same steps between different points of a closed set have the same
layers around a point of it. -/
theorem layer_congr {R' : α → α → Prop} {S : α → Prop} (hs : S s)
    (hclosed : ∀ u v, S u → R u v → S v)
    (hsame : ∀ u v, S u → v ≠ u → (R u v ↔ R' u v)) {n : ℕ} {v : α} :
    Layer R s n v ↔ Layer R' s n v := by
  have hinside : ∀ n v, Within R s n v → S v := by
    intro n
    induction n with
    | zero => exact fun v hv => hv ▸ hs
    | succ n ih =>
      rintro v (hv | ⟨u, hu, huv⟩)
      · exact ih v hv
      · exact hclosed u v (ih u hu) huv
  have hwithin : ∀ n v, Within R s n v ↔ Within R' s n v := by
    intro n
    induction n with
    | zero => exact fun v => Iff.rfl
    | succ n ih =>
      intro v
      rw [Within, Within, ← ih v]
      by_cases hv : Within R s n v
      · exact iff_of_true (.inl hv) (.inl hv)
      · refine or_congr_right (exists_congr fun u => ?_)
        rw [← ih u]
        refine and_congr_right fun hu => hsame u v (hinside n u hu) ?_
        rintro rfl
        exact hv hu
  rw [Layer, Layer, hwithin n v]
  exact and_congr_right fun _ => forall₂_congr fun m _ => not_congr (hwithin m v)

end Layers
