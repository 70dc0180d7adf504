import Mathlib

/-!
# Bloom filters

The bits of a filter are kept in words of 64. An item has some positions, an insert sets the bits
there, and an item is taken to be in the filter if the bits at all of its positions are set.

So a filter answers with the positions alone (`contains_insertAll_iff`). An item that was inserted
is found by its own positions, but not by those that another hash function gives it.
-/

namespace Bloom

/-- The bits of a filter, 64 to a word. -/
abbrev Words : Type := List (BitVec 64)

/-- The bit at a position. -/
def bit (ws : Words) (p : ℕ) : Bool := ((ws[p / 64]?).getD 0).getLsbD (p % 64)

/-- Sets the bit at a position. -/
def setBit (ws : Words) (p : ℕ) : Words := ws.modify (p / 64) (· ||| BitVec.twoPow 64 (p % 64))

/-- Sets the bits at the positions of an item. -/
def insert (ws : Words) (positions : List ℕ) : Words := positions.foldl setBit ws

/-- Whether the bits at all positions of an item are set. -/
def contains (ws : Words) (positions : List ℕ) : Bool := positions.all (bit ws)

theorem length_setBit (ws : Words) (p : ℕ) : (setBit ws p).length = ws.length :=
  List.length_modify ..

theorem length_insert (ws : Words) (positions : List ℕ) :
    (insert ws positions).length = ws.length := by
  induction positions generalizing ws with
  | nil => rfl
  | cons p rest ih => exact (ih (setBit ws p)).trans (length_setBit ws p)

/-- A bit that is set reads as set, and the others as before. -/
theorem bit_setBit {ws : Words} {p : ℕ} (hp : p < 64 * ws.length) (q : ℕ) :
    bit (setBit ws p) q = (decide (q = p) || bit ws q) := by
  rw [bit, setBit, List.getElem?_modify, bit]
  by_cases hword : p / 64 = q / 64
  · have hlt : q / 64 < ws.length := by omega
    have hbit : (p % 64 = q % 64) ↔ q = p := by omega
    rw [List.getElem?_eq_getElem hlt]
    simp only [hword, if_true, Option.map_eq_map, Option.map_some, Option.getD_some,
      BitVec.getLsbD_or, BitVec.getLsbD_twoPow, hbit, Nat.mod_lt p (by decide : 64 > 0),
      decide_true, Bool.true_and]
    exact Bool.or_comm _ _
  · have hne : q ≠ p := fun h => hword (by rw [h])
    simp [hword, hne]

/-- After an insert the bits of the item are set, and no others are added. -/
theorem bit_insert {ws : Words} {positions : List ℕ} (h : ∀ p ∈ positions, p < 64 * ws.length)
    (q : ℕ) : bit (insert ws positions) q = true ↔ q ∈ positions ∨ bit ws q = true := by
  induction positions generalizing ws with
  | nil => simp [insert]
  | cons p rest ih =>
    obtain ⟨hp, hrest⟩ := List.forall_mem_cons.mp h
    have hlen : ∀ q ∈ rest, q < 64 * (setBit ws p).length := by rwa [length_setBit]
    rw [insert, List.foldl_cons, ← insert, ih hlen, bit_setBit hp, Bool.or_eq_true,
      decide_eq_true_eq, List.mem_cons]
    tauto

theorem bit_replicate (n q : ℕ) : bit (List.replicate n 0) q = false := by
  rw [bit, List.getElem?_replicate]
  split <;> exact BitVec.getLsbD_zero

section Items

variable {α : Type*} (index : α → List ℕ)

/-- Inserts items one after the other. -/
def insertAll (items : List α) (ws : Words) : Words :=
  items.foldl (fun ws x => insert ws (index x)) ws

variable {index}

/-- Inserting items is inserting all their positions. -/
theorem insertAll_eq (items : List α) (ws : Words) :
    insertAll index items ws = insert ws (items.flatMap index) := by
  induction items generalizing ws with
  | nil => rfl
  | cons x rest ih =>
    rw [List.flatMap_cons, insert, List.foldl_append]
    exact ih (insert ws (index x))

/-- **What a filter answers.** Among the positions of its items, those of the item that is asked
for. -/
theorem contains_insertAll_iff {items : List α} {n : ℕ}
    (h : ∀ x ∈ items, ∀ p ∈ index x, p < 64 * n) (positions : List ℕ) :
    contains (insertAll index items (List.replicate n 0)) positions = true ↔
      ∀ p ∈ positions, ∃ x ∈ items, p ∈ index x := by
  have hrange : ∀ p ∈ items.flatMap index, p < 64 * (List.replicate n (0 : BitVec 64)).length := by
    intro p hp
    obtain ⟨x, hx, hp⟩ := List.mem_flatMap.mp hp
    rw [List.length_replicate]
    exact h x hx p hp
  rw [contains, List.all_eq_true, insertAll_eq]
  refine forall₂_congr fun p _ => ?_
  rw [bit_insert hrange, bit_replicate, List.mem_flatMap]
  exact or_iff_left Bool.false_ne_true

end Items

end Bloom
