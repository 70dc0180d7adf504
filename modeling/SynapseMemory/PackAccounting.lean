import SynapseMemory.Pack

/-!
# Accounting of the packer

Every stage of `pack` moves ids between three lists and changes the running
token total. The invariant that survives all of them is `Accounted`: the used
tokens are the sum over the blocks and stay within the budget, and the three id
lists together are a permutation of the input ids.

The sort is the one stage whose order the standard library leaves open (an
incomparable pair makes the comparison no total order), so the stages after it
are shown correct for *every* permutation of the candidates.
-/

namespace SynapseMemory

namespace Pack

variable {S : Type}

/-- The tokens paid for by a list of blocks. -/
def totalTokens (blocks : List PackedBlock) : ℕ := (blocks.map (·.tokens)).sum

/-- Every id the result mentions, list by list. -/
def Packed.allIds (p : Packed) : List ℤ := p.blocks.map (·.id) ++ p.droppedIds ++ p.dedupedIds

/-- Budget safety and exact accounting of a result for candidates with the ids
`ids`: each of them occurs exactly once, in exactly one list, and no other id
occurs at all. -/
structure Accounted (ids : List ℤ) (budget : ℕ) (p : Packed) : Prop where
  /-- used tokens are exactly the tokens of the blocks -/
  used_eq : p.usedTokens = totalTokens p.blocks
  /-- and they fit the budget -/
  used_le : p.usedTokens ≤ budget
  /-- no id is lost, duplicated or invented -/
  count_ids : ∀ id, p.allIds.count id = if id ∈ ids then 1 else 0

/-! ## Ranking -/

theorem trustAdjust_id [Score S] (c : Candidate S) : (trustAdjust c).id = c.id := rfl

/-- Ranking only moves the candidates, once their scores are adjusted. -/
theorem rank_perm [Score S] (cands : List (Candidate S)) :
    (rank cands).Perm (cands.map trustAdjust) :=
  List.mergeSort_perm _ _

/-! ## Dedup -/

/-- Ids held by the dedup state. -/
def Dedup.ids (d : Dedup S) : List ℤ := d.kept.map (·.id) ++ d.dedupedIds

/-- A step of the loop loses no id. -/
theorem dedupStep_ids (d : Dedup S) (c : Candidate S) :
    (dedupStep d c).ids.Perm (d.ids ++ [c.id]) := by
  simp only [dedupStep]
  split
  · -- a duplicate goes to the end of the last list
    simp [Dedup.ids]
  · -- a kept candidate goes in front of the deduped ids
    simp only [Dedup.ids, List.map_append, List.map_cons, List.map_nil, List.append_assoc]
    exact List.Perm.append_left _ List.perm_append_comm

theorem foldl_dedupStep_ids (cands : List (Candidate S)) (d : Dedup S) :
    (cands.foldl dedupStep d).ids.Perm (d.ids ++ cands.map (·.id)) := by
  induction cands generalizing d with
  | nil => simp
  | cons c rest ih =>
    have hstep := (dedupStep_ids d c).append_right (rest.map (·.id))
    rw [List.append_assoc] at hstep
    exact (ih (dedupStep d c)).trans hstep

theorem dedup_ids (cands : List (Candidate S)) :
    (dedup cands).ids.Perm (cands.map (·.id)) :=
  foldl_dedupStep_ids cands {}

/-! ## The greedy walk -/

/-- Ids held by the greedy state. -/
def Greedy.ids (g : Greedy) : List ℤ := g.chosen.map (·.id) ++ g.droppedIds

/-- Invariant of the greedy loop after the candidates with ids `ids`. -/
structure Greedy.Sound (budget : ℕ) (ids : List ℤ) (g : Greedy) : Prop where
  /-- the running total is the total of the chosen blocks -/
  used_eq : g.used = totalTokens g.chosen
  /-- and within the budget -/
  used_le : g.used ≤ budget
  /-- every visited id is chosen or dropped -/
  ids_perm : g.ids.Perm ids

/-- The tokens of a pack do not depend on its order. -/
theorem totalTokens_perm {blocks blocks' : List PackedBlock} (h : blocks.Perm blocks') :
    totalTokens blocks = totalTokens blocks' :=
  (h.map PackedBlock.tokens).sum_eq

theorem totalTokens_concat (blocks : List PackedBlock) (b : PackedBlock) :
    totalTokens (blocks ++ [b]) = totalTokens blocks + b.tokens := by
  simp [totalTokens]

section Place

variable [Unicode]

@[simp] theorem blockAt_id (c : Candidate S) (tier : Tier) : (blockAt c tier).id = c.id := rfl

/-- What the tier loop returns: a block of the candidate that fits, not below the floor. -/
theorem placeTier_eq_some {avail used : ℕ} {c : Candidate S} {b : PackedBlock}
    (h : placeTier avail used c = some b) :
    ∃ tier, b = blockAt c tier ∧ c.kind.floor.rank ≤ tier.rank ∧ used + b.tokens ≤ avail := by
  obtain ⟨tier, -, hb⟩ := List.exists_of_findSome?_eq_some h
  split at hb
  · cases hb
  next hfloor =>
    by_cases hfit : used + (blockAt c tier).tokens ≤ avail
    · simp only [hfit, if_true] at hb
      obtain rfl := Option.some.inj hb
      exact ⟨tier, rfl, not_lt.mp hfloor, hfit⟩
    · simp only [hfit, if_false] at hb
      cases hb

/-- A candidate that is placed keeps the accounts right. -/
theorem placeStep_sound {avail : ℕ} {ids : List ℤ} {g : Greedy} (hg : g.Sound avail ids)
    (c : Candidate S) : (placeStep avail g c).Sound avail (ids ++ [c.id]) := by
  unfold placeStep
  rcases hp : placeTier avail g.used c with _ | b
  · -- nothing fits: the id is dropped
    refine ⟨hg.used_eq, hg.used_le, ?_⟩
    have := hg.ids_perm.append_right [c.id]
    simpa [Greedy.ids] using this
  · -- the block is chosen: its tokens are added, its id joins the chosen ids
    obtain ⟨tier, rfl, -, hfit⟩ := placeTier_eq_some hp
    refine ⟨?_, hfit, ?_⟩
    · simp only [totalTokens_concat, hg.used_eq]
    · have hmove : (g.chosen.map (·.id) ++ [c.id] ++ g.droppedIds).Perm (g.ids ++ [c.id]) := by
        rw [Greedy.ids, List.append_assoc, List.append_assoc]
        exact List.Perm.append_left _ List.perm_append_comm
      have := hmove.trans (hg.ids_perm.append_right [c.id])
      simpa [Greedy.ids] using this

/-- So do all of them. -/
theorem foldl_placeStep_sound {avail : ℕ} (kept : List (Candidate S)) {ids : List ℤ} {g : Greedy}
    (hg : g.Sound avail ids) :
    (kept.foldl (placeStep avail) g).Sound avail (ids ++ kept.map (·.id)) := by
  induction kept generalizing g ids with
  | nil => simpa using hg
  | cons c rest ih =>
    have := ih (placeStep_sound hg c)
    simpa using this

/-- The accounts after placing. -/
theorem place_sound (avail : ℕ) (kept : List (Candidate S)) :
    (place avail kept).Sound avail (kept.map (·.id)) := by
  have hinit : (({} : Greedy)).Sound avail [] := ⟨rfl, Nat.zero_le _, List.Perm.refl _⟩
  exact foldl_placeStep_sound kept hinit

/-! ## The min-one rescue -/

omit [Unicode] in
/-- With nothing chosen, every kept id is dropped; taking the top id out again
leaves exactly the others, because the ids are distinct. -/
theorem filter_top_perm {dropped rest : List ℤ} {top : ℤ} (hperm : dropped.Perm (top :: rest))
    (hnd : (top :: rest).Nodup) : (top :: dropped.filter (· != top)).Perm (top :: rest) := by
  have hrest : (top :: rest).filter (· != top) = rest := by
    have hnot : ∀ d ∈ rest, d ≠ top := fun d hd heq => (List.nodup_cons.mp hnd).1 (heq ▸ hd)
    simpa [List.filter_eq_self] using hnot
  have hfilter := hperm.filter (· != top)
  rw [hrest] at hfilter
  exact hfilter.cons top

theorem rescue_sound {budget avail : ℕ} (hle : avail ≤ budget) {kept : List (Candidate S)}
    (hnd : (kept.map (·.id)).Nodup) {g : Greedy} (hg : g.Sound avail (kept.map (·.id))) :
    (rescue budget kept g).Sound budget (kept.map (·.id)) := by
  have hsame : g.Sound budget (kept.map (·.id)) :=
    ⟨hg.used_eq, le_trans hg.used_le hle, hg.ids_perm⟩
  unfold rescue
  split
  · rename_i top rest hempty
    by_cases hfit : (blockAt top .oneLine).tokens ≤ budget
    · -- the rescued id leaves the dropped list and becomes the only block
      simp only [hfit, if_true]
      have hdropped : g.droppedIds.Perm (top.id :: rest.map (·.id)) := by
        simpa [Greedy.ids, hempty] using hg.ids_perm
      refine ⟨by simp [totalTokens], hfit, ?_⟩
      simpa [Greedy.ids] using filter_top_perm hdropped (by simpa using hnd)
    · simp only [hfit, if_false]
      exact hsame
  · exact hsame

end Place

/-! ## Reordering -/

/-- This order only moves blocks. -/
theorem serialPositionOrder_perm (blocks : List PackedBlock) :
    (serialPositionOrder blocks).Perm blocks := by
  unfold serialPositionOrder
  split
  · rename_i first last third rest
    have : (third :: rest ++ [last]).Perm (last :: third :: rest) := List.perm_append_singleton _ _
    simpa using this.cons first
  · exact List.Perm.refl _

/-- So does the other one. -/
theorem cacheStableOrder_perm (blocks : List PackedBlock) (prevUsedIds : List ℤ) :
    (cacheStableOrder blocks prevUsedIds).Perm blocks := by
  unfold cacheStableOrder
  split
  · exact serialPositionOrder_perm blocks
  · simp only [List.partition_eq_filter_filter]
    refine ((serialPositionOrder_perm _).append_left _).trans ?_
    exact List.filter_append_perm _ blocks

/-- So does either of them. -/
theorem orderBlocks_perm (options : PackOptions) (blocks : List PackedBlock) :
    (orderBlocks options blocks).Perm blocks := by
  unfold orderBlocks
  split
  · exact cacheStableOrder_perm blocks _
  · exact serialPositionOrder_perm blocks

/-! ## The pipeline -/

theorem available_le (options : PackOptions) : available options ≤ options.budgetTokens :=
  Nat.sub_le _ _

section Place

variable [Unicode]

/-- The stages after the sort keep the accounting, whatever order they start from. -/
theorem packRanked_accounted (options : PackOptions) (naive : ℕ) (ranked : List (Candidate S))
    (hnd : (ranked.map (·.id)).Nodup) :
    Accounted (ranked.map (·.id)) options.budgetTokens (packRanked options naive ranked) := by
  have hdedup := dedup_ids ranked
  have hkept : ((dedup ranked).kept.map (·.id)).Nodup :=
    (List.nodup_append.mp (hdedup.nodup_iff.mpr hnd)).1
  have hg := rescue_sound (available_le options) hkept (place_sound (available options) _)
  have horder := orderBlocks_perm options
    (rescue options.budgetTokens (dedup ranked).kept
      (place (available options) (dedup ranked).kept)).chosen
  refine ⟨?_, hg.used_le, ?_⟩
  · exact hg.used_eq.trans (totalTokens_perm horder).symm
  · intro id
    have hall : (packRanked options naive ranked).allIds.Perm (ranked.map (·.id)) := by
      refine List.Perm.trans ?_ hdedup
      exact (((horder.map (·.id)).append_right _).trans hg.ids_perm).append_right _
    rw [hall.count_eq]
    split
    · exact List.count_eq_one_of_mem hnd ‹_›
    · exact List.count_eq_zero_of_not_mem ‹_›

/-- Two candidates neither of which fits a budget of 10 tokens at its floor tier. -/
def tinyCands : List (Candidate ℚ) :=
  [⟨1, [], "lat = 8ms\nlots of extra prose here that will not fit at all".toList, 9 / 10,
    .decision⟩,
    ⟨2, [], "other doc with different words entirely".toList, 1 / 2, .file⟩]

end Place

end Pack

end SynapseMemory
