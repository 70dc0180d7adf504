import SynapseMemory.OrderStatistics

/-!
# A lower bound on recall

The calibrator keeps the residual `1 - recall` of each query it was calibrated with. The bound it
gives for another query is one less a quantile of them, at the level `(1 - alpha)(1 + 1 / n)`, which
is cut off at 1. Numbers are those of an ordered field.

Take one of `n + 1` residuals for the other query, each in turn. It is covered by the bound from the
others if it is not above their quantile. That is a matter of its rank, so enough of them are
covered as long as the level is at most 1. Where it is cut off the quantile is the greatest residual
of the others, and a single greatest one of all is not covered (`coverage_iff`).
-/

namespace SynapseMemory.Conformal

open OrderStatistics

variable {F : Type*} [Field F] [LinearOrder F] [IsStrictOrderedRing F] [FloorSemiring F]

/-! ## The calibrator -/

/-- The level of the quantile, cut off at 1. -/
def qLevel (n : ℕ) (alpha : F) : F := min ((1 - alpha) * (1 + 1 / n)) 1

/-- The place of the quantile among `n` residuals in ascending order. -/
def quantileIdx (n : ℕ) (alpha : F) : ℕ := min (⌈qLevel n alpha * n⌉₊ - 1) (n - 1)

omit [IsStrictOrderedRing F] in
theorem quantileIdx_lt {n : ℕ} (hpos : 0 < n) (alpha : F) : quantileIdx n alpha < n :=
  (min_le_right _ _).trans_lt (Nat.sub_lt hpos Nat.one_pos)

/-- `conformal_quantile`: the score at the index of the level, of the sorted scores. -/
def conformalQuantile (scores : List F) (alpha : F) (hne : scores ≠ []) : F :=
  (sorted scores).get ⟨quantileIdx scores.length alpha, by
    rw [length_sorted]
    exact quantileIdx_lt (List.length_pos_of_ne_nil hne) alpha⟩

/-- A calibrator: the residuals that were seen, and a level strictly between zero and one. -/
structure ConformalCalibrator (F : Type*) [Field F] [LinearOrder F] where
  residuals : List F
  alpha : F
  alpha_pos : 0 < alpha
  alpha_lt_one : alpha < 1

/-- `clamp` -/
def clamp (x lo hi : F) : F := if x < lo then lo else if hi < x then hi else x

/-- `predict_recall_lower_bound`: one less the quantile of the residuals, and zero without
residuals. -/
def ConformalCalibrator.predictRecallLowerBound (c : ConformalCalibrator F) : F :=
  if hne : c.residuals = [] then 0
  else clamp (1 - conformalQuantile c.residuals c.alpha hne) 0 1

/-- The calibrator for one of the residuals: it has the others. -/
def leaveOut (r : List F) (alpha : F) (h0 : 0 < alpha) (h1 : alpha < 1) (i : ℕ) :
    ConformalCalibrator F :=
  ⟨r.eraseIdx i, alpha, h0, h1⟩

/-- The number of residuals whose recall is at least the bound from the others. -/
def covered (r : List F) (alpha : F) (h0 : 0 < alpha) (h1 : alpha < 1) : ℕ :=
  (List.finRange r.length).countP fun i : Fin r.length =>
    (leaveOut r alpha h0 h1 i).predictRecallLowerBound ≤ 1 - r.get i

/-! ## The place of the quantile -/

theorem level_mul {n : ℕ} (hpos : 0 < n) (alpha : F) :
    (1 - alpha) * (1 + 1 / (n : F)) * n = (1 - alpha) * (n + 1) := by
  have hne : (n : F) ≠ 0 := Nat.cast_ne_zero.mpr (Nat.ne_of_gt hpos)
  field_simp

/-- The level is at most 1 if one in `n + 1` may be missed. -/
theorem level_le_one_iff {n : ℕ} (hpos : 0 < n) (alpha : F) :
    (1 - alpha) * (1 + 1 / (n : F)) ≤ 1 ↔ 1 ≤ alpha * (n + 1) := by
  have hn : (0 : F) < n := Nat.cast_pos.mpr hpos
  rw [← mul_le_mul_iff_left₀ hn, level_mul hpos, one_mul]
  constructor <;> intro h <;> linarith

theorem quantileIdx_of_le {n : ℕ} {alpha : F} (hpos : 0 < n) (h : 1 ≤ alpha * (n + 1)) :
    quantileIdx n alpha = ⌈(1 - alpha) * (n + 1)⌉₊ - 1 := by
  have hle : (1 - alpha) * ((n : F) + 1) ≤ n := by linarith
  rw [quantileIdx, qLevel, min_eq_left ((level_le_one_iff hpos alpha).mpr h), level_mul hpos]
  exact min_eq_left (Nat.sub_le_sub_right (Nat.ceil_le.mpr hle) 1)

/-- Where the level is cut off the place is the last one. -/
theorem quantileIdx_of_lt {n : ℕ} {alpha : F} (hpos : 0 < n) (h : alpha * (n + 1) < 1) :
    quantileIdx n alpha = n - 1 := by
  have hcut := (not_le.mp ((level_le_one_iff hpos alpha).not.mpr (not_le.mpr h))).le
  rw [quantileIdx, qLevel, min_eq_right hcut, one_mul, Nat.ceil_natCast, min_self]

/-! ## Coverage -/

omit [Field F] [IsStrictOrderedRing F] [FloorSemiring F] in
theorem clamp_eq_self {x lo hi : F} (hlo : lo ≤ x) (hhi : x ≤ hi) : clamp x lo hi = x := by
  rw [clamp, if_neg (not_lt.mpr hlo), if_neg (not_lt.mpr hhi)]

/-- A residual is covered if it is not above the quantile of the others. -/
theorem covers_iff {r : List F} {alpha : F} {h0 : 0 < alpha} {h1 : alpha < 1}
    (hlen : 2 ≤ r.length) (hr : ∀ x ∈ r, 0 ≤ x ∧ x ≤ 1) (i : Fin r.length) :
    (leaveOut r alpha h0 h1 i).predictRecallLowerBound ≤ 1 - r.get i ↔
      rank r (r.get i) ≤ quantileIdx (r.length - 1) alpha := by
  have hothers : (r.eraseIdx i).length = r.length - 1 := List.length_eraseIdx_of_lt i.isLt
  have hne : r.eraseIdx i ≠ [] := List.ne_nil_of_length_pos (by omega)
  obtain ⟨hlo, hhi⟩ : 0 ≤ conformalQuantile (r.eraseIdx i) alpha hne ∧
      conformalQuantile (r.eraseIdx i) alpha hne ≤ 1 :=
    hr _ ((List.eraseIdx_sublist r i).mem ((sorted_perm _).mem_iff.mp (List.get_mem _ _)))
  have hbound : (leaveOut r alpha h0 h1 i).predictRecallLowerBound =
      1 - conformalQuantile (r.eraseIdx i) alpha hne :=
    (dif_neg hne).trans (clamp_eq_self (sub_nonneg.mpr hhi) (sub_le_self 1 hlo))
  rw [hbound, sub_le_sub_iff_left, ← hothers]
  exact le_orderStat_eraseIdx_iff r i.isLt _

/-- The covered scores are those whose rank is at most the index. -/
theorem covered_eq {r : List F} {alpha : F} (h0 : 0 < alpha) (h1 : alpha < 1) (hlen : 2 ≤ r.length)
    (hr : ∀ x ∈ r, 0 ≤ x ∧ x ≤ 1) :
    covered r alpha h0 h1 = r.countP fun x => rank r x ≤ quantileIdx (r.length - 1) alpha := by
  refine Eq.trans (List.countP_congr fun i _ => ?_) (countP_finRange r _)
  rw [decide_eq_true_eq, decide_eq_true_eq]
  exact covers_iff hlen hr i

/-- **Coverage.** Of `n + 1` residuals the share `1 - alpha` is covered just if `alpha` is at least
one of them, or the greatest residual is there more than once. -/
theorem coverage_iff {n : ℕ} (hpos : 1 ≤ n) {alpha : F} (h0 : 0 < alpha) (h1 : alpha < 1)
    {r : List F} (hlen : r.length = n + 1) (hr : ∀ x ∈ r, 0 ≤ x ∧ x ≤ 1) :
    (1 - alpha) * (n + 1) ≤ covered r alpha h0 h1 ↔ 1 ≤ alpha * (n + 1) ∨ GreatestTwice r := by
  have hn : (0 : F) < n + 1 := by positivity
  rw [covered_eq h0 h1 (by omega) hr, hlen, Nat.add_sub_cancel]
  rcases le_or_gt 1 (alpha * (n + 1)) with hmiss | hmiss
  · refine iff_of_true ?_ (.inl hmiss)
    have hmany := lt_countP_rank_le r (k := quantileIdx n alpha)
      (hlen ▸ (quantileIdx_lt hpos alpha).trans (Nat.lt_succ_self n))
    rw [quantileIdx_of_le hpos hmiss] at hmany ⊢
    exact Nat.ceil_le.mp (by omega)
  · have hlast := length_le_countP_rank_iff (l := r) (by omega)
    have hall : (r.countP fun x => rank r x ≤ n - 1) ≤ n + 1 := hlen ▸ List.countP_le_length
    rw [hlen, show n + 1 - 2 = n - 1 by omega] at hlast
    rw [quantileIdx_of_lt hpos hmiss, or_iff_right (not_le.mpr hmiss), ← hlast]
    constructor
    · intro h
      -- more than `n` are covered, so all are
      have hmore : (n : F) < (r.countP fun x => rank r x ≤ n - 1 : ℕ) := by linarith
      exact Nat.cast_lt.mp hmore
    · intro h
      have hcast : ((n + 1 : ℕ) : F) ≤ (r.countP fun x => rank r x ≤ n - 1 : ℕ) := Nat.cast_le.mpr h
      push_cast at hcast
      nlinarith

/-- Three scores, at a level of one half. -/
theorem coverage_half : (1 - 1 / 2 : ℚ) * ((2 : ℕ) + 1) ≤
    (covered ([0, 1 / 2, 1] : List ℚ) (1 / 2) (by norm_num) (by norm_num) : ℚ) := by
  have hresiduals : ∀ x ∈ ([0, 1 / 2, 1] : List ℚ), 0 ≤ x ∧ x ≤ 1 := by
    simp only [List.forall_mem_cons]
    norm_num
  exact (coverage_iff (by decide) (by norm_num) (by norm_num) rfl hresiduals).mpr
    (.inl (by norm_num))

/-- A single query with a worse recall than the one it was calibrated with. -/
theorem coverage_fails :
    ¬∀ (n : ℕ) (alpha : ℚ) (h0 : 0 < alpha) (h1 : alpha < 1) (r : List ℚ), 1 ≤ n →
      r.length = n + 1 → (∀ x ∈ r, 0 ≤ x ∧ x ≤ 1) →
      (1 - alpha) * (n + 1) ≤ covered r alpha h0 h1 := by
  intro hall
  have h := hall 1 (1 / 4) (by norm_num) (by norm_num) [0, 1] (by decide) rfl (by norm_num)
  have hcovered : covered [0, (1 : ℚ)] (1 / 4) (by norm_num) (by norm_num) = 1 := by
    have hidx : quantileIdx ([0, (1 : ℚ)].length - 1) (1 / 4 : ℚ) = 0 :=
      quantileIdx_of_lt (by decide) (by norm_num)
    rw [covered_eq (by norm_num) (by norm_num) (by decide) (by norm_num), hidx]
    simp [rank]
  rw [hcovered] at h
  norm_num at h

end SynapseMemory.Conformal
