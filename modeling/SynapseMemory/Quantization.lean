import Mathlib

/-!
# Vectors of small integers

A vector is kept as whole numbers and a scale. The scale is such that the greatest entry becomes
`n`, so an entry is off by half a step at most (`abs_decode_sub_le`). A dot product of two such
vectors is off by a sum of such errors (`abs_dot_sub_dot_le`), a maximum by no more than its
arguments (`abs_foldl_max_sub_le`), and a sum by the sum of what its terms are off by
(`abs_sum_sub_sum_le`).
-/

namespace Quantization

variable {α : Type} [Field α] [LinearOrder α] [IsStrictOrderedRing α]

/-! ## Greatest entries -/

/-- The greatest absolute value. -/
def maxAbs (v : List α) : α := v.foldl (fun a x => max a |x|) 0

omit [IsStrictOrderedRing α] in
theorem le_foldl_maxAbs (v : List α) (a : α) :
    a ≤ v.foldl (fun a x => max a |x|) a ∧ ∀ x ∈ v, |x| ≤ v.foldl (fun a x => max a |x|) a := by
  induction v generalizing a with
  | nil => simp
  | cons y v ih =>
    obtain ⟨hstart, hall⟩ := ih (max a |y|)
    refine ⟨(le_max_left a |y|).trans hstart, fun x hx => ?_⟩
    rcases List.mem_cons.mp hx with rfl | hx
    · exact (le_max_right a |x|).trans hstart
    · exact hall x hx

omit [IsStrictOrderedRing α] in
theorem maxAbs_nonneg (v : List α) : 0 ≤ maxAbs v := (le_foldl_maxAbs v 0).1

omit [IsStrictOrderedRing α] in
/-- No number is larger than the largest one. -/
theorem abs_le_maxAbs {v : List α} {x : α} (hx : x ∈ v) : |x| ≤ maxAbs v :=
    (le_foldl_maxAbs v 0).2 x hx

omit [IsStrictOrderedRing α] in
theorem maxAbs_le {v : List α} {m : α} (hm : 0 ≤ m) (h : ∀ x ∈ v, |x| ≤ m) : maxAbs v ≤ m :=
  List.foldlRecOn (motive := (· ≤ m)) v _ hm fun _ ha x hx => max_le ha (h x hx)

/-! ## Dot products, maxima, sums -/

/-- The dot product. -/
def dot (a b : List α) : α := (List.zipWith (· * ·) a b).sum

theorem sum_zipWith_eq_zero {R : Type} [NonUnitalNonAssocSemiring R] {a b : List R}
    (h : (∀ x ∈ a, x = 0) ∨ ∀ y ∈ b, y = 0) : (List.zipWith (· * ·) a b).sum = 0 := by
  refine List.sum_eq_zero fun z hz => ?_
  rw [← List.map_uncurry_zip_eq_zipWith] at hz
  obtain ⟨⟨x, y⟩, hxy, rfl⟩ := List.mem_map.mp hz
  rcases h with h | h
  · simp [h x (List.of_mem_zip hxy).1]
  · simp [h y (List.of_mem_zip hxy).2]

/-- Entries near those of another list, and bounded. -/
def Near (ε A : α) (a' a : List α) : Prop :=
  List.Forall₂ (fun x' x => |x' - x| ≤ ε ∧ |x'| ≤ A ∧ |x| ≤ A) a' a

/-- The error of a product. -/
theorem abs_mul_sub_mul_le {ε δ A B x' x y' y : α} (hx : |x' - x| ≤ ε) (hx' : |x'| ≤ A)
    (hy : |y' - y| ≤ δ) (hy' : |y| ≤ B) : |x' * y' - x * y| ≤ A * δ + ε * B := by
  have hA : 0 ≤ A := (abs_nonneg x').trans hx'
  have hε : 0 ≤ ε := (abs_nonneg _).trans hx
  calc |x' * y' - x * y| = |x' * (y' - y) + (x' - x) * y| := by ring_nf
    _ ≤ |x'| * |y' - y| + |x' - x| * |y| := by
      rw [← abs_mul, ← abs_mul]
      exact abs_add_le _ _
    _ ≤ A * δ + ε * B := by gcongr

/-- **What a dot product is off by.** -/
theorem abs_dot_sub_dot_le {ε δ A B : α} {a' a b' b : List α} (ha : Near ε A a' a)
    (hb : Near δ B b' b) (hlength : a.length = b.length) :
    |dot a' b' - dot a b| ≤ a.length * (A * δ + ε * B) := by
  induction ha generalizing b' b with
  | nil => simp [dot]
  | @cons x' x a' a hx ha ih =>
    cases hb with
    | nil => cases hlength
    | @cons y' y b' b hy hb =>
      have hrest := ih hb (Nat.succ.inj hlength)
      have hfirst := abs_mul_sub_mul_le hx.1 hx.2.1 hy.1 hy.2.2
      have hsplit : dot (x' :: a') (y' :: b') - dot (x :: a) (y :: b) =
          (x' * y' - x * y) + (dot a' b' - dot a b) := by
        simp only [dot, List.zipWith_cons_cons, List.sum_cons]
        ring
      rw [hsplit, List.length_cons]
      push_cast
      linarith [abs_add_le (x' * y' - x * y) (dot a' b' - dot a b)]

variable {β : Type}

/-- A maximum is off by no more than its arguments. -/
theorem abs_foldl_max_sub_le {f g : β → α} {ε : α} {l : List β}
    (h : ∀ b ∈ l, |f b - g b| ≤ ε) {s t : α} (hst : |s - t| ≤ ε) :
    |l.foldl (fun a b => max a (f b)) s - l.foldl (fun a b => max a (g b)) t| ≤ ε := by
  induction l generalizing s t with
  | nil => exact hst
  | cons b l ih =>
    obtain ⟨hb, hl⟩ := List.forall_mem_cons.mp h
    refine ih hl ((abs_max_sub_max_le_max s (f b) t (g b)).trans (max_le hst hb))

/-- A sum is off by the sum of what its terms are off by. -/
theorem abs_sum_sub_sum_le {f g e : β → α} {l : List β} (h : ∀ b ∈ l, |f b - g b| ≤ e b) :
    |(l.map f).sum - (l.map g).sum| ≤ (l.map e).sum := by
  induction l with
  | nil => simp
  | cons b l ih =>
    obtain ⟨hb, hl⟩ := List.forall_mem_cons.mp h
    have hsplit : ((b :: l).map f).sum - ((b :: l).map g).sum =
        (f b - g b) + ((l.map f).sum - (l.map g).sum) := by
      simp only [List.map_cons, List.sum_cons]
      ring
    rw [hsplit, List.map_cons, List.sum_cons]
    linarith [abs_add_le (f b - g b) ((l.map f).sum - (l.map g).sum), ih hl]

variable [FloorRing α]

/-! ## Rounding -/

/-- The nearest whole number, away from zero from the middle of two. -/
def roundAway (x : α) : ℤ := if 0 ≤ x then round x else -round (-x)

/-- Rounding is off by a half at most. -/
theorem abs_roundAway_sub_le (x : α) : |(roundAway x : α) - x| ≤ 1 / 2 := by
  rw [roundAway]
  split
  · rw [abs_sub_comm]
    exact abs_sub_round x
  · have h := abs_sub_round (-x)
    rwa [Int.cast_neg, neg_sub_left, abs_neg, add_comm, ← sub_neg_eq_add, abs_sub_comm]

/-- Rounding does not leave a whole bound. -/
theorem abs_roundAway_le {x : α} {n : ℕ} (h : |x| ≤ n) : |roundAway x| ≤ n := by
  have hnear := abs_roundAway_sub_le x
  have hless : |(roundAway x : α)| < n + 1 := by
    have htri := abs_sub_abs_le_abs_sub (roundAway x : α) x
    linarith
  have hcast : ((|roundAway x| : ℤ) : α) < ((n + 1 : ℕ) : α) := by
    rw [Int.cast_abs]
    push_cast
    exact hless
  have hlt : |roundAway x| < (n + 1 : ℕ) := by exact_mod_cast hcast
  omega

/-- A number, brought between two bounds. -/
def clamp (lo hi n : ℤ) : ℤ := max lo (min hi n)

/-- A number in bounds is not clamped. -/
theorem clamp_of_abs_le {n hi : ℤ} (h : |n| ≤ hi) : clamp (-hi) hi n = n := by
  rw [abs_le] at h
  rw [clamp, min_eq_right h.2, max_eq_right h.1]

/-! ## Codes -/

/-- The whole number for an entry, where `m` becomes `n`. -/
def code (n : ℕ) (m x : α) : ℤ := clamp (-n) n (roundAway (x / (m / n)))

/-- What a code stands for. -/
def decode (n : ℕ) (m : α) (c : ℤ) : α := c * (m / n)

variable {n : ℕ} {m x : α}

omit [FloorRing α] in
theorem abs_div_step_le (hn : 0 < n) (hm : 0 < m) (hx : |x| ≤ m) : |x / (m / n)| ≤ n := by
  have hn' : (0 : α) < n := Nat.cast_pos.mpr hn
  rw [abs_div, abs_of_pos (div_pos hm hn'), div_le_iff₀ (div_pos hm hn'), mul_div_cancel₀ _ hn'.ne']
  exact hx

theorem code_eq (hn : 0 < n) (hm : 0 < m) (hx : |x| ≤ m) : code n m x = roundAway (x / (m / n)) :=
  clamp_of_abs_le (abs_roundAway_le (abs_div_step_le hn hm hx))

/-- A code is in bounds. -/
theorem abs_code_le (hn : 0 < n) (hm : 0 < m) (hx : |x| ≤ m) : |code n m x| ≤ n := by
  rw [code_eq hn hm hx]
  exact abs_roundAway_le (abs_div_step_le hn hm hx)

/-- **Half a step.** -/
theorem abs_decode_sub_le (hn : 0 < n) (hm : 0 < m) (hx : |x| ≤ m) :
    |decode n m (code n m x) - x| ≤ m / n / 2 := by
  have hstep : 0 < m / n := div_pos hm (Nat.cast_pos.mpr hn)
  have hsplit : decode n m (code n m x) - x =
      ((roundAway (x / (m / n)) : α) - x / (m / n)) * (m / n) := by
    rw [decode, code_eq hn hm hx, sub_mul, div_mul_cancel₀ _ hstep.ne']
  rw [hsplit, abs_mul, abs_of_pos hstep]
  calc |(roundAway (x / (m / n)) : α) - x / (m / n)| * (m / n)
      ≤ 1 / 2 * (m / n) := by gcongr; exact abs_roundAway_sub_le _
    _ = m / n / 2 := by ring

theorem abs_decode_le (hn : 0 < n) (hm : 0 < m) (hx : |x| ≤ m) :
    |decode n m (code n m x)| ≤ m := by
  have hn' : (0 : α) < n := Nat.cast_pos.mpr hn
  have hcode : |(code n m x : α)| ≤ n := by
    have h := abs_code_le hn hm hx
    rw [← Int.cast_abs]
    exact_mod_cast h
  rw [decode, abs_mul, abs_of_pos (div_pos hm hn')]
  calc |(code n m x : α)| * (m / n) ≤ n * (m / n) := by gcongr
    _ = m := mul_div_cancel₀ _ hn'.ne'

/-! ## Coded vectors -/

/-- A vector and what its codes stand for. -/
theorem near_decode (hn : 0 < n) (hm : 0 < m) {v : List α} (hv : ∀ x ∈ v, |x| ≤ m) :
    Near (m / n / 2) m (v.map fun x => decode n m (code n m x)) v := by
  rw [Near, List.forall₂_map_left_iff]
  exact List.forall₂_same.mpr fun x hx =>
    ⟨abs_decode_sub_le hn hm (hv x hx), abs_decode_le hn hm (hv x hx), hv x hx⟩

omit [LinearOrder α] [IsStrictOrderedRing α] [FloorRing α] in
/-- The dot product of codes, with both scales. -/
theorem dot_decode (m m' : α) (a b : List ℤ) :
    dot (a.map (decode n m)) (b.map (decode n m')) =
      ((List.zipWith (· * ·) a b).sum : ℤ) * (m / n) * (m' / n) := by
  induction a generalizing b with
  | nil => simp [dot]
  | cons x a ih =>
    cases b with
    | nil => simp [dot]
    | cons y b =>
      have hrest := ih b
      simp only [dot, List.map_cons, List.zipWith_cons_cons, List.sum_cons, Int.cast_add,
        Int.cast_mul] at hrest ⊢
      rw [hrest, decode, decode]
      ring

/-- **What a dot product of codes is off by.** -/
theorem abs_dot_codes_sub_le (hn : 0 < n) {m' : α} (hm : 0 < m) (hm' : 0 < m') {a b : List α}
    (ha : ∀ x ∈ a, |x| ≤ m) (hb : ∀ x ∈ b, |x| ≤ m') (hlength : a.length = b.length) :
    |((List.zipWith (· * ·) (a.map (code n m)) (b.map (code n m'))).sum : ℤ) * (m / n) * (m' / n) -
      dot a b| ≤ a.length * (m * m' / n) := by
  have hdot := abs_dot_sub_dot_le (near_decode hn hm ha) (near_decode hn hm' hb) hlength
  rw [← dot_decode, List.map_map, List.map_map]
  refine hdot.trans (le_of_eq ?_)
  ring

end Quantization
