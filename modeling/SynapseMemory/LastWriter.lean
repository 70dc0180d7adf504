import Mathlib

/-!
# Last writers

Operations carry a key and a rank. An operation of a set **leads** if none of the set with its key
has a greater rank. Throwing away what does not lead loses nothing that a later union needs
(`leaders_union_of_between`): the leaders of a union are those of the leaders of its parts. So
leaders can be taken at any time, in instalments and over parts that overlap.

An operation that some operation of another set outranks, or that is in it, is **covered** by that
set. A union with operations that are covered has no new leaders (`leaders_union_of_covered`).
-/

namespace LastWriter

variable {ω κ ρ : Type*} [LinearOrder ρ] (key : ω → κ) (rank : ω → ρ)

/-- The operations of a set that lead their keys. -/
def leaders (s : Set ω) : Set ω := {x | x ∈ s ∧ ∀ y ∈ s, key y = key x → rank y ≤ rank x}

/-- Each operation of the first set has one of the second with its key and at least its rank. -/
def Covered (t s : Set ω) : Prop := ∀ x ∈ t, ∃ y ∈ s, key y = key x ∧ rank x ≤ rank y

variable {key rank} {s t u : Set ω}

theorem leaders_subset : leaders key rank s ⊆ s := fun _ hx => hx.1

theorem Covered.of_subset (h : t ⊆ s) : Covered key rank t s :=
  fun x hx => ⟨x, h hx, rfl, le_refl _⟩

theorem Covered.trans (htu : Covered key rank t u) (hus : Covered key rank u s) :
    Covered key rank t s := by
  intro x hx
  obtain ⟨y, hy, hkey, hle⟩ := htu x hx
  obtain ⟨z, hz, hkey', hle'⟩ := hus y hy
  exact ⟨z, hz, hkey'.trans hkey, hle.trans hle'⟩

theorem Covered.union (ht : Covered key rank t s) (hu : Covered key rank u s) :
    Covered key rank (t ∪ u) s := by
  rintro x (hx | hx)
  · exact ht x hx
  · exact hu x hx

/-- A finite set is covered by its leaders. -/
theorem covered_leaders (hs : s.Finite) : Covered key rank s (leaders key rank s) := by
  intro x hx
  obtain ⟨y, ⟨hy, hkey⟩, hmax⟩ := Set.exists_max_image {y ∈ s | key y = key x} rank
    (hs.subset fun _ h => h.1) ⟨x, hx, rfl⟩
  refine ⟨y, ⟨hy, fun z hz hzy => ?_⟩, hkey, hmax x ⟨hx, rfl⟩⟩
  exact hmax z ⟨hz, hzy.trans hkey⟩

/-- What leads a set leads each part that it is in. -/
theorem mem_leaders_of_subset {x : ω} (h : x ∈ leaders key rank s) (hts : t ⊆ s) (hx : x ∈ t) :
    x ∈ leaders key rank t :=
  ⟨hx, fun y hy => h.2 y (hts hy)⟩

/-- An operation that leads a set that covers another one leads that one as well, if it is in it. -/
theorem mem_leaders_of_covered {x : ω} (h : x ∈ leaders key rank s) (hcov : Covered key rank t s)
    (hx : x ∈ t) : x ∈ leaders key rank t := by
  refine ⟨hx, fun y hy hkey => ?_⟩
  obtain ⟨z, hz, hzkey, hle⟩ := hcov y hy
  exact hle.trans (h.2 z hz (hzkey.trans hkey))

/-- **Leaders in instalments.** What is thrown away before a union does not lead. -/
theorem leaders_union_of_between (hs : s.Finite) (hle : leaders key rank s ⊆ u) (hus : u ⊆ s) :
    leaders key rank (u ∪ t) = leaders key rank (s ∪ t) := by
  have hsub : u ∪ t ⊆ s ∪ t := Set.union_subset_union_left t hus
  have hcov : Covered key rank (s ∪ t) (u ∪ t) := by
    refine Covered.union ?_ (Covered.of_subset Set.subset_union_right)
    exact (covered_leaders hs).trans (Covered.of_subset (hle.trans Set.subset_union_left))
  apply Set.Subset.antisymm
  · exact fun x hx => mem_leaders_of_covered hx hcov (hsub hx.1)
  · intro x hx
    refine mem_leaders_of_subset hx hsub ?_
    rcases hx.1 with hxs | hxt
    · exact .inl (hle (mem_leaders_of_subset hx Set.subset_union_left hxs))
    · exact .inr hxt

/-- Operations that are covered change nothing, if the rank tells operations apart. -/
theorem leaders_union_of_covered (hinj : (s ∪ t).InjOn rank) (hcov : Covered key rank t s) :
    leaders key rank (s ∪ t) = leaders key rank s := by
  have hcov' : Covered key rank (s ∪ t) s :=
    Covered.union (Covered.of_subset (Set.Subset.refl s)) hcov
  apply Set.Subset.antisymm
  · intro x hx
    refine mem_leaders_of_subset hx Set.subset_union_left ?_
    rcases hx.1 with hxs | hxt
    · exact hxs
    · obtain ⟨y, hy, hkey, hle⟩ := hcov x hxt
      have hrank : rank x = rank y := le_antisymm hle (hx.2 y (.inl hy) hkey)
      rw [hinj (.inr hxt) (.inl hy) hrank]
      exact hy
  · exact fun x hx => mem_leaders_of_covered hx hcov' (.inl hx.1)

/-- A key has one leader, if the rank tells operations apart. -/
theorem eq_of_mem_leaders (hinj : s.InjOn rank) {x y : ω} (hx : x ∈ leaders key rank s)
    (hy : y ∈ leaders key rank s) (hkey : key x = key y) : x = y :=
  hinj hx.1 hy.1 (le_antisymm (hy.2 x hx.1 hkey) (hx.2 y hy.1 hkey.symm))

/-! ## One more operation -/

/-- A new element changes nothing for other keys. -/
theorem leaders_insert_of_ne {x z : ω} (hz : key z ≠ key x) :
    z ∈ leaders key rank (insert x s) ↔ z ∈ leaders key rank s := by
  refine ⟨?_, ?_⟩
  · rintro ⟨rfl | hzs, hmax⟩
    · exact absurd rfl hz
    · exact ⟨hzs, fun w hw => hmax w (.inr hw)⟩
  · rintro ⟨hzs, hmax⟩
    refine ⟨.inr hzs, ?_⟩
    rintro w (rfl | hw) hwz
    · exact absurd hwz.symm hz
    · exact hmax w hw hwz

/-- For a key that had no operation. -/
theorem leaders_insert_of_new {x z : ω} (hnew : ∀ y ∈ s, key y ≠ key x) (hz : key z = key x) :
    z ∈ leaders key rank (insert x s) ↔ z = x := by
  refine ⟨?_, ?_⟩
  · rintro ⟨rfl | hzs, -⟩
    · rfl
    · exact absurd hz (hnew z hzs)
  · rintro rfl
    refine ⟨.inl rfl, ?_⟩
    rintro w (rfl | hw) hwz
    · exact le_refl _
    · exact absurd hwz (hnew w hw)

/-- For a key that has a leader. -/
theorem leaders_insert_of_leader {x y z : ω} (hy : y ∈ leaders key rank s) (hkey : key y = key x)
    (hz : key z = key x) :
    z ∈ leaders key rank (insert x s) ↔
      (z = x ∧ rank y ≤ rank x) ∨ (z ∈ leaders key rank s ∧ rank x ≤ rank z) := by
  refine ⟨?_, ?_⟩
  · rintro ⟨rfl | hzs, hmax⟩
    · exact .inl ⟨rfl, hmax y (.inr hy.1) hkey⟩
    · exact .inr ⟨⟨hzs, fun w hw => hmax w (.inr hw)⟩, hmax x (.inl rfl) hz.symm⟩
  · rintro (⟨rfl, hle⟩ | ⟨hzs, hle⟩)
    · refine ⟨.inl rfl, ?_⟩
      rintro w (rfl | hw) hwx
      · exact le_refl _
      · exact (hy.2 w hw (hwx.trans hkey.symm)).trans hle
    · refine ⟨.inr hzs.1, ?_⟩
      rintro w (rfl | hw) hwz
      · exact hle
      · exact hzs.2 w hw hwz

end LastWriter
