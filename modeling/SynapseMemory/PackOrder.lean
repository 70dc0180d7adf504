import SynapseMemory.PackAccounting
import SynapseMemory.StableSort

/-!
# What the packer does with the order

Three stages of `pack` go through a list in its order.

* The sort puts the best candidate first. Where all scores are numbers and the ids are distinct no
  two candidates compare as equal, so it does not matter in which order they came (`pack_perm`).
* The dedup loop keeps a candidate unless one that it kept before is near. So no two that it keeps
  are near, and every other one is near to one that is kept and ranked before it (`dedup_exact`).
* The cache-stable order puts the blocks that were used before in front, in the order in which they
  were chosen. That is the order of the previous pack only if they were chosen in it
  (`cacheStable_iff`).
-/

namespace SynapseMemory.Pack

variable {S : Type}

/-! ## Near duplicates -/

/-- The texts of two candidates are not near. -/
def Far (a b : Candidate S) : Prop := 3 < hamming (simhash a.text) (simhash b.text)

instance (a b : Candidate S) : Decidable (Far a b) := Nat.decLt _ _

/-- The survivors are far from each other, and every other candidate is near to one of them that is
ranked before it. -/
structure Thinned (ranked survivors : List (Candidate S)) (dedupedIds : List ℤ) : Prop where
  sublist : survivors.Sublist ranked
  /-- nothing gets lost -/
  complete : ∀ c ∈ ranked, c ∈ survivors ∨ c.id ∈ dedupedIds
  far : survivors.Pairwise Far
  near : ∀ id ∈ dedupedIds, ∃ before c after, ranked = before ++ c :: after ∧ c.id = id ∧
    ∃ k ∈ before, k ∈ survivors ∧ ¬Far k c

/-- The hashes that the loop compares with are those of what it has kept. -/
theorem dedupStep_hashes {d : Dedup S} (h : d.keptHashes = d.kept.map fun c => simhash c.text)
    (c : Candidate S) :
    (dedupStep d c).keptHashes = (dedupStep d c).kept.map fun c => simhash c.text := by
  rw [dedupStep]
  split
  · exact h
  · rw [List.map_append, ← h]
    rfl

/-- A step of the loop drops a candidate, or keeps it. -/
theorem dedupStep_thinned {ranked : List (Candidate S)} {d : Dedup S}
    (hhashes : d.keptHashes = d.kept.map fun c => simhash c.text)
    (h : Thinned ranked d.kept d.dedupedIds) (c : Candidate S) :
    Thinned (ranked ++ [c]) (dedupStep d c).kept (dedupStep d c).dedupedIds := by
  have hearlier : ∀ id ∈ d.dedupedIds, ∀ survivors, d.kept ⊆ survivors →
      ∃ before x after, ranked ++ [c] = before ++ x :: after ∧ x.id = id ∧
        ∃ k ∈ before, k ∈ survivors ∧ ¬Far k x := by
    intro id hid survivors hsub
    obtain ⟨before, x, after, hranked, hxid, k, hk, hkept, hnear⟩ := h.near id hid
    refine ⟨before, x, after ++ [c], ?_, hxid, k, hk, hsub hkept, hnear⟩
    rw [hranked, List.append_assoc, List.cons_append]
  rw [dedupStep]
  split
  next hany =>
    -- a kept candidate is near, so this one is a duplicate of it
    rw [hhashes, List.any_map, List.any_eq_true] at hany
    obtain ⟨k, hk, hle⟩ := hany
    refine ⟨h.sublist.trans (List.sublist_append_left _ _), fun x hx => ?_, h.far,
      fun id hid => ?_⟩
    · rcases List.mem_append.mp hx with hx | hx
      · exact (h.complete x hx).imp_right (List.mem_append_left _)
      · obtain rfl := List.mem_singleton.mp hx
        exact .inr (List.mem_append_right _ (List.mem_singleton_self _))
    rcases List.mem_append.mp hid with hid | hid
    · exact hearlier id hid d.kept (List.Subset.refl _)
    · obtain rfl := List.mem_singleton.mp hid
      exact ⟨ranked, c, [], rfl, rfl, k, h.sublist.subset hk, hk, by simpa [Far] using hle⟩
  next hnone =>
    have hfar : ∀ k ∈ d.kept, Far k c := by
      intro k hk
      rw [hhashes, List.any_map, List.any_eq_true] at hnone
      exact not_le.mp fun hle => hnone ⟨k, hk, decide_eq_true hle⟩
    refine ⟨h.sublist.append (List.Sublist.refl _), fun x hx => ?_, ?_, fun id hid => ?_⟩
    · rcases List.mem_append.mp hx with hx | hx
      · exact (h.complete x hx).imp_left (List.mem_append_left _)
      · exact .inl (List.mem_append_right _ hx)
    · refine List.pairwise_append.mpr ⟨h.far, List.pairwise_singleton _ _, fun a ha b hb => ?_⟩
      obtain rfl := List.mem_singleton.mp hb
      exact hfar a ha
    · exact hearlier id hid _ (List.subset_append_left _ _)

theorem dedup_thinned (ranked : List (Candidate S)) :
    (dedup ranked).keptHashes = (dedup ranked).kept.map (fun c => simhash c.text) ∧
      Thinned ranked (dedup ranked).kept (dedup ranked).dedupedIds := by
  induction ranked using List.reverseRecOn with
  | nil =>
    exact ⟨rfl, List.Sublist.refl _, nofun, List.Pairwise.nil, nofun⟩
  | append_singleton ranked c ih =>
    rw [dedup, List.foldl_concat]
    exact ⟨dedupStep_hashes ih.1 c, dedupStep_thinned ih.1 ih.2 c⟩

/-- **Deduplication is exact**, for the candidates in the order of `pack` and in any other. -/
theorem dedup_exact [Unicode] [Score S] (options : PackOptions) (cands : List (Candidate S)) :
    Thinned (rank cands) (dedup (rank cands)).kept (pack options cands).dedupedIds ∧
      ∀ ranked : List (Candidate S), ∀ naive, Thinned ranked (dedup ranked).kept
        (packRanked options naive ranked).dedupedIds :=
  ⟨(dedup_thinned _).2, fun ranked _ => (dedup_thinned ranked).2⟩

/-! ## The sort -/

/-- The score is a number: it compares with itself. -/
def IsNum [Score S] (a : S) : Prop := Score.partialCmp a a ≠ none

/-- What the comparison of `f32` promises: numbers are ordered, and adding a literal to a number is
a number. -/
class LawfulScore (S : Type) [Score S] : Prop where
  total : ∀ {a b : S}, IsNum a → IsNum b →
    ∃ o, Score.partialCmp a b = some o ∧ Score.partialCmp b a = some o.swap
  trans : ∀ {a b c : S}, IsNum a → IsNum b → IsNum c → Score.partialCmp a b ≠ some .gt →
    Score.partialCmp b c ≠ some .gt → Score.partialCmp a c ≠ some .gt
  add_centi : ∀ {a : S} (n : ℤ), IsNum a → IsNum (Score.add a (Score.centi n))

instance : LawfulScore ℚ where
  total {a b} _ _ := ⟨compare a b, rfl, congrArg some (Std.OrientedOrd.eq_swap)⟩
  trans {a b c} _ _ _ hab hbc := by
    simp only [Score.partialCmp, ne_eq, Option.some.injEq, compare_gt_iff_gt, not_lt] at hab hbc ⊢
    exact hab.trans hbc
  add_centi n _ := Option.some_ne_none _

section Ranking

variable [Score S] [LawfulScore S]

/-- The comparison of two numbers. -/
def numCmp (a b : { a : S // IsNum a }) : Ordering := (Score.partialCmp a.1 b.1).getD .eq

instance : Std.TransCmp (numCmp (S := S)) where
  eq_swap {a b} := by
    obtain ⟨o, hab, hba⟩ := LawfulScore.total a.2 b.2
    rw [numCmp, numCmp, hab, hba, Option.getD_some, Option.getD_some, Ordering.swap_swap]
  isLE_trans {a b c} hab hbc := by
    obtain ⟨o, ho, -⟩ := LawfulScore.total a.2 b.2
    obtain ⟨o', ho', -⟩ := LawfulScore.total b.2 c.2
    obtain ⟨o'', ho'', -⟩ := LawfulScore.total a.2 c.2
    rw [numCmp, ho, Option.getD_some] at hab
    rw [numCmp, ho', Option.getD_some] at hbc
    rw [numCmp, ho'', Option.getD_some]
    have htrans := LawfulScore.trans a.2 b.2 c.2 (by rw [ho]; cases o <;> simp_all)
      (by rw [ho']; cases o' <;> simp_all)
    rw [ho''] at htrans
    cases o'' <;> simp_all

/-- The comparison of the sort orders the candidates whose scores are numbers. -/
theorem transCmp_byScore :
    Std.TransCmp fun a b : { c : Candidate S // IsNum c.score } => byScore a.1 b.1 := by
  have hscore : Std.TransCmp fun a b : { c : Candidate S // IsNum c.score } =>
      numCmp ⟨b.1.score, b.2⟩ ⟨a.1.score, a.2⟩ :=
    { eq_swap := Std.OrientedCmp.eq_swap
      isLE_trans := fun hab hbc => Std.TransCmp.isLE_trans hbc hab }
  exact inferInstanceAs (Std.TransCmp (compareLex
    (fun a b : { c : Candidate S // IsNum c.score } => numCmp ⟨b.1.score, b.2⟩ ⟨a.1.score, a.2⟩)
    (compareOn fun c => c.1.id)))

/-- The sort of candidates with distinct ids does not depend on the order that they come in. -/
theorem rank_eq_of_perm {cands cands' : List (Candidate S)} (hperm : cands.Perm cands')
    (hnodup : (cands.map (·.id)).Nodup) (hnum : ∀ c ∈ cands, IsNum c.score) :
    rank cands = rank cands' := by
  have hnum' : ∀ c ∈ cands.map trustAdjust, IsNum c.score := by
    intro c hc
    obtain ⟨x, hx, rfl⟩ := List.mem_map.mp hc
    exact LawfulScore.add_centi _ (hnum x hx)
  have hnodup' : ((cands.map trustAdjust).map (·.id)).Nodup := by
    rw [List.map_map]
    exact hnodup
  have hle : ∀ a b : Candidate S, (byScore a b != .gt) = (byScore a b).isLE := by
    intro a b
    cases byScore a b <;> rfl
  have hcmp := transCmp_byScore (S := S)
  refine StableSort.mergeSort_eq_of_perm (hperm.map trustAdjust) (fun a ha b hb c hc => ?_)
    (fun a ha b hb => ?_) (fun a ha b hb => ?_)
  · rw [hle, hle, hle]
    exact hcmp.isLE_trans (a := ⟨a, hnum' a ha⟩) (b := ⟨b, hnum' b hb⟩) (c := ⟨c, hnum' c hc⟩)
  · have hswap := hcmp.eq_swap (a := ⟨a, hnum' a ha⟩) (b := ⟨b, hnum' b hb⟩)
    rw [hle, hle, hswap]
    cases byScore b a <;> rfl
  · -- only one candidate has this id
    intro hab hba
    have hswap := hcmp.eq_swap (a := ⟨a, hnum' a ha⟩) (b := ⟨b, hnum' b hb⟩)
    have hequal : byScore a b = .eq := by
      rw [hle, hswap] at hab
      rw [hle] at hba
      rw [hswap]
      revert hab hba
      cases byScore b a <;> decide
    rw [byScore, Ordering.then_eq_eq] at hequal
    exact List.inj_on_of_nodup_map hnodup' ha hb (compare_eq_iff_eq.mp hequal.2)

/-- **The order of the candidates does not matter.** -/
theorem pack_perm [Unicode] (options : PackOptions) {cands cands' : List (Candidate S)}
    (hperm : cands.Perm cands') (hnodup : (cands.map (·.id)).Nodup)
    (hnum : ∀ c ∈ cands, IsNum c.score) : pack options cands = pack options cands' := by
  have hnaive : naiveTokens cands = naiveTokens cands' := (hperm.map _).sum_eq
  rw [pack, pack, hnaive, rank_eq_of_perm hperm hnodup hnum]

end Ranking

theorem pack_perm_tiny :
    let _ := Unicode.asciiOnly
    pack { budgetTokens := 24 } tinyCands = pack { budgetTokens := 24 } tinyCands.reverse := by
  intro _
  exact pack_perm _ tinyCands.reverse_perm.symm (by decide) fun _ _ => Option.some_ne_none _

/-! ## The cache-stable order -/

/-- The order that keeps the start of the previous pack: the blocks that were used before come
first, in the order of the previous pack, and the new ones follow. -/
def CacheStable (blocks : List PackedBlock) (prevUsedIds : List ℤ) (out : List PackedBlock) :
    Prop :=
  out.Perm blocks ∧ ∃ old new, out = old ++ new ∧ (∀ b ∈ old, b.id ∈ prevUsedIds) ∧
    (∀ b ∈ new, b.id ∉ prevUsedIds) ∧
    old.Pairwise fun a b => prevUsedIds.idxOf a.id ≤ prevUsedIds.idxOf b.id

/-- The blocks that were used before, as they are chosen, are in the order of the previous pack. -/
def KeepsOrder (blocks : List PackedBlock) (prevUsedIds : List ℤ) : Prop :=
  (blocks.filter fun b => prevUsedIds.contains b.id).Pairwise fun a b =>
    prevUsedIds.idxOf a.id ≤ prevUsedIds.idxOf b.id

theorem cacheStableOrder_eq (blocks : List PackedBlock) (prevUsedIds : List ℤ) :
    cacheStableOrder blocks prevUsedIds =
      (blocks.filter fun b => prevUsedIds.contains b.id) ++
        serialPositionOrder (blocks.filter fun b => !prevUsedIds.contains b.id) := by
  rw [cacheStableOrder]
  split
  next hempty =>
    obtain rfl := List.isEmpty_iff.mp hempty
    simp
  next => rw [List.partition_eq_filter_filter]; rfl

/-- **When the order is cache-stable.** The loop keeps the order of its own blocks. -/
theorem cacheStable_iff (blocks : List PackedBlock) (prevUsedIds : List ℤ) :
    CacheStable blocks prevUsedIds (cacheStableOrder blocks prevUsedIds) ↔
      KeepsOrder blocks prevUsedIds := by
  have hused : ∀ b ∈ blocks.filter (fun b => prevUsedIds.contains b.id),
      prevUsedIds.contains b.id = true := fun b hb => (List.mem_filter.mp hb).2
  have hfresh : ∀ b ∈ serialPositionOrder (blocks.filter fun b => !prevUsedIds.contains b.id),
      prevUsedIds.contains b.id = false := by
    intro b hb
    rw [(serialPositionOrder_perm _).mem_iff, List.mem_filter, Bool.not_eq_true'] at hb
    exact hb.2
  constructor
  · rintro ⟨-, old, new, hout, hold, hnew, horder⟩
    rw [cacheStableOrder_eq] at hout
    obtain ⟨heq, -⟩ := StableSort.eq_of_cut hout hused hfresh
      (fun b hb => List.contains_iff_mem.mpr (hold b hb))
      (fun b hb => by simpa using hnew b hb)
    rwa [KeepsOrder, heq]
  · intro horder
    refine ⟨cacheStableOrder_perm _ _, _, _, cacheStableOrder_eq _ _, fun b hb => ?_,
      fun b hb => ?_, horder⟩
    · exact List.contains_iff_mem.mp (hused b hb)
    · simpa using hfresh b hb

/-- Two facts, chosen in this order. -/
def reranked : List PackedBlock :=
  [⟨1, .file, .full, [], "a = 1".toList, 3⟩, ⟨2, .file, .full, [], "b = 2".toList, 3⟩]

theorem reranked_not_cacheStable :
    ¬CacheStable reranked [2, 1] (cacheStableOrder reranked [2, 1]) := by
  rintro ⟨-, old, new, hout, hold, hnew, horder⟩
  have hused : ∀ b ∈ cacheStableOrder reranked [2, 1], b.id ∈ [2, 1] := by decide
  have hnone : new = [] := by
    refine List.eq_nil_iff_forall_not_mem.mpr fun b hb => hnew b hb (hused b ?_)
    rw [hout]
    exact List.mem_append_right old hb
  rw [hnone, List.append_nil] at hout
  rw [← hout] at horder
  revert horder
  decide

end SynapseMemory.Pack
