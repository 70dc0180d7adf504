import Mathlib

/-!
# Closure under inferences, and semi-naive iteration

A set of inferences over an arbitrary type, the least set closed under it above
a given set, and the invariant behind *semi-naive* iteration: instead of looking
at every inference again in each round, only those with a premise in the last
round's increment (`delta`) are looked at.

* `Closed R F` — `F` is closed under the inferences `R`.
* `LeastModel R F₀ M` — `M` is the least closed set above `F₀`. It is unique
  and can be computed in instalments (`Between`).
* `Round R E F D F' D'` — what one semi-naive round does to the facts `F` with
  increment `D`. The inferences in `E` are looked at in every round, the others
  only through the increment.
* `Saturated R E F D` — the invariant between rounds. A round keeps it, a round
  without news ends at the least model, and every other round gets strictly
  closer to any finite closed bound.
-/

namespace Closure

universe u

variable {α : Type u}

/-- One inference: from all premises, the conclusion. -/
structure Inference (α : Type u) where
  /-- what is needed -/
  premises : Set α
  /-- what follows -/
  conclusion : α

variable {R R' E : Set (Inference α)} {F F₀ F' D D' M N U : Set α}

/-- `F` is closed under the inferences `R`. -/
def Closed (R : Set (Inference α)) (F : Set α) : Prop :=
  ∀ i ∈ R, i.premises ⊆ F → i.conclusion ∈ F

/-- `M` is the least set closed under `R` that contains `F₀`. -/
def LeastModel (R : Set (Inference α)) (F₀ M : Set α) : Prop :=
  IsLeast {F | F₀ ⊆ F ∧ Closed R F} M

theorem Closed.mono (h : R ⊆ R') (hF : Closed R' F) : Closed R F :=
  fun i hi => hF i (h hi)

theorem LeastModel.unique (hM : LeastModel R F₀ M) (hN : LeastModel R F₀ N) : M = N :=
  IsLeast.unique hM hN

/-- A closed set is its own least model. -/
theorem Closed.leastModel (h : Closed R F) : LeastModel R F F :=
  ⟨⟨subset_rfl, h⟩, fun _ hG => hG.1⟩

/-- `F` is a partial evaluation of `F₀`: it contains it, and nothing that does
not follow from it. Evaluation may stop and resume at any such set. -/
def Between (R : Set (Inference α)) (F₀ F : Set α) : Prop :=
  F₀ ⊆ F ∧ ∀ G, F₀ ⊆ G → Closed R G → F ⊆ G

theorem Between.refl (R : Set (Inference α)) (F : Set α) : Between R F F :=
  ⟨subset_rfl, fun _ h _ => h⟩

/-- More elements and more inferences may arrive between two evaluations. -/
theorem Between.extend (h : Between R F₀ F) (hR : R ⊆ R') (D : Set α) :
    Between R' (F₀ ∪ D) (F ∪ D) := by
  refine ⟨Set.union_subset_union_left D h.1, fun G hG hclosed => ?_⟩
  have hF : F ⊆ G := h.2 G (Set.subset_union_left.trans hG) (hclosed.mono hR)
  exact Set.union_subset hF (Set.subset_union_right.trans hG)

/-- **Incremental evaluation**: the least model above a partial evaluation is the
least model above what it started from. -/
theorem Between.leastModel (h : Between R F₀ F) (hM : LeastModel R F M) : LeastModel R F₀ M := by
  obtain ⟨⟨hFM, hclosed⟩, hleast⟩ := hM
  refine ⟨⟨h.1.trans hFM, hclosed⟩, ?_⟩
  rintro G ⟨hF₀G, hG⟩
  exact hleast ⟨h.2 G hF₀G hG, hG⟩

/-- Evaluating a partial evaluation to the end is one more partial evaluation. -/
theorem Between.trans (h : Between R F₀ F) (hM : LeastModel R F M) : Between R F₀ M :=
  ⟨h.1.trans hM.1.1, fun G hG hclosed => hM.2 ⟨h.2 G hG hclosed, hclosed⟩⟩

/-! ## Semi-naive rounds -/

/-- One round: the facts grow from `F` to `F'`, the increment is exactly what is
new, nothing unjustified is added, every inference from `F` that uses the last
increment `D` is drawn, and so is every inference of `E`. -/
structure Round (R E : Set (Inference α)) (F D F' D' : Set α) : Prop where
  /-- facts only grow -/
  grows : F ⊆ F'
  /-- the increment is what is new -/
  delta : D' = F' \ F
  /-- nothing outside a closed superset is added -/
  sound : ∀ M, F ⊆ M → Closed R M → F' ⊆ M
  /-- inferences through the increment are drawn -/
  fires : ∀ i ∈ R, i.premises ⊆ F → ¬ Disjoint i.premises D → i.conclusion ∈ F'
  /-- the inferences of `E` are drawn in any case -/
  eager : ∀ i ∈ E, i.premises ⊆ F' → i.conclusion ∈ F'

/-- Between rounds, only inferences through the increment (or in `E`) are open. -/
def Saturated (R E : Set (Inference α)) (F D : Set α) : Prop :=
  ∀ i ∈ R, i ∉ E → i.premises ⊆ F → Disjoint i.premises D → i.conclusion ∈ F

/-- A round keeps the invariant. -/
theorem Round.saturated (hr : Round R E F D F' D') (hs : Saturated R E F D) :
    Saturated R E F' D' := by
  intro i hi hE hprem hdisj
  -- premises that avoid what is new are old premises
  have hold : i.premises ⊆ F := by
    intro x hx
    by_contra hxF
    have hxD : x ∈ D' := by
      rw [hr.delta]
      exact ⟨hprem hx, hxF⟩
    exact Set.disjoint_left.mp hdisj hx hxD
  by_cases hD : Disjoint i.premises D
  · exact hr.grows (hs i hi hE hold hD)
  · exact hr.fires i hi hold hD

/-- A round does not change what the least model is. -/
theorem Round.leastModel (hr : Round R E F D F' D') (hM : LeastModel R F' M) :
    LeastModel R F M := by
  have hbetween : Between R F F' := ⟨hr.grows, hr.sound⟩
  exact hbetween.leastModel hM

/-- A round that adds nothing ends in a closed set. -/
theorem Round.closed_of_done (hr : Round R E F D F' D') (hs : Saturated R E F D)
    (hdone : D' = ∅) : F' = F ∧ Closed R F' := by
  have heq : F' = F := by
    refine Set.Subset.antisymm ?_ hr.grows
    rw [← Set.sdiff_eq_empty, ← hr.delta]
    exact hdone
  refine ⟨heq, fun i hi hprem => ?_⟩
  by_cases hE : i ∈ E
  · exact hr.eager i hE hprem
  · have hold : i.premises ⊆ F := heq ▸ hprem
    by_cases hD : Disjoint i.premises D
    · exact hr.grows (hs i hi hE hold hD)
    · exact hr.fires i hi hold hD

/-- A round that adds something gets closer to every finite closed bound. -/
theorem Round.ncard_lt (hr : Round R E F D F' D') (hU : U.Finite) (hclosed : Closed R U)
    (hFU : F ⊆ U) (hne : D' ≠ ∅) : (U \ F').ncard < (U \ F).ncard := by
  obtain ⟨x, hx⟩ := Set.nonempty_iff_ne_empty.mpr hne
  rw [hr.delta] at hx
  refine Set.ncard_lt_ncard ?_ (hU.subset Set.sdiff_subset)
  refine ⟨Set.sdiff_subset_sdiff_right hr.grows, fun hsub => ?_⟩
  have hxU : x ∈ U := hr.sound U hFU hclosed hx.1
  exact (hsub ⟨hxU, hx.2⟩).2 hx.1

end Closure
