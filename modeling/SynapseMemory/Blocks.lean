import SynapseMemory.Outcome

/-!
# Blocks of one length

Lists that are made of blocks of one length, read by computed offsets and written into a buffer.
Block `i` of `n` elements each is at `i * n`, and a part of it at `i * n + a` (`slice_block`). A
buffer that is filled from its front holds what was written and then what it had (`foldlM_append`).
-/

namespace Blocks

variable {ε α : Type}

/-! ## Reading -/

/-- The block with a number, of blocks of one length. -/
def block (n i : ℕ) (l : List α) : List α := (l.drop (i * n)).take n

/-- A block of the joined rows is a row. -/
theorem block_flatten {n : ℕ} {rows : List (List α)} (h : ∀ r ∈ rows, r.length = n) {i : ℕ}
    {r : List α} (hi : rows[i]? = some r) : block n i rows.flatten = r := by
  induction rows generalizing i with
  | nil => cases hi
  | cons r' rows ih =>
    obtain ⟨hr', hrows⟩ := List.forall_mem_cons.mp h
    cases i with
    | zero =>
      obtain rfl := Option.some_inj.mp hi
      rw [block, List.flatten_cons, Nat.zero_mul, List.drop_zero, List.take_left' hr']
    | succ i =>
      rw [block, List.flatten_cons, Nat.succ_mul, Nat.add_comm, ← List.drop_drop,
        List.drop_left' hr']
      exact ih hrows hi

/-- A part of a block. -/
theorem slice_block {n a b : ℕ} (h : a + b ≤ n) (i : ℕ) (l : List α) :
    (l.drop (i * n + a)).take b = ((block n i l).drop a).take b := by
  rw [block, List.drop_take, List.take_take, min_eq_left (by omega), List.drop_drop]

theorem length_flatten {n : ℕ} {rows : List (List α)} (h : ∀ r ∈ rows, r.length = n) :
    rows.flatten.length = rows.length * n := by
  rw [List.length_flatten, List.map_congr_left h]
  simp

/-- A slice in a block. -/
theorem slice_flatten {n a b i : ℕ} {rows : List (List α)} (h : ∀ r ∈ rows, r.length = n)
    {r : List α} (hi : rows[i]? = some r) (hab : a + b ≤ n) :
    (Outcome.slice rows.flatten (i * n + a) (i * n + a + b) : Outcome ε (List α)) =
      .ok ((r.drop a).take b) := by
  have hroom : i * n + n ≤ rows.flatten.length := by
    obtain ⟨hless, -⟩ := List.getElem?_eq_some_iff.mp hi
    rw [length_flatten h, ← Nat.succ_mul]
    exact Nat.mul_le_mul_right n hless
  rw [Outcome.slice_of (by omega) (by omega), Nat.add_sub_cancel_left, slice_block hab,
    block_flatten h hi]

/-- A list is its elements, one index after the other. -/
theorem map_range_getD {β : Type} (f : α → β) (l : List α) (d : α) :
    (List.range l.length).map (fun i => f (l.getD i d)) = l.map f := by
  refine List.ext_getElem (by simp) fun i _ hi => ?_
  rw [List.length_map] at hi
  simp [hi]

/-- **Rows come back** from their elements. -/
theorem map_block_flatten {n : ℕ} {rows : List (List α)} (h : ∀ r ∈ rows, r.length = n) :
    ((List.range rows.length).map fun i => block n i rows.flatten) = rows := by
  have hblock : ∀ i ∈ List.range rows.length, block n i rows.flatten = rows.getD i [] := by
    intro i hi
    have hget := List.getElem?_eq_getElem (List.mem_range.mp hi)
    rw [block_flatten h hget, List.getD_eq_getElem?_getD, hget, Option.getD_some]
  rw [List.map_congr_left hblock, map_range_getD fun r => r, List.map_id']

/-- `chunks`: the last one may be shorter. -/
def chunks (n : ℕ) (l : List α) : List (List α) :=
  (List.range ((l.length + n - 1) / n)).map fun i => block n i l

/-- `chunks_exact`: what is left over is dropped. -/
def chunksExact (n : ℕ) (l : List α) : List (List α) :=
  (List.range (l.length / n)).map fun i => block n i l

theorem chunksExact_flatten {n : ℕ} (hn : 0 < n) {rows : List (List α)}
    (h : ∀ r ∈ rows, r.length = n) : chunksExact n rows.flatten = rows := by
  have hcount : rows.flatten.length / n = rows.length := by
    rw [length_flatten h, Nat.mul_div_cancel _ hn]
  rw [chunksExact, hcount, map_block_flatten h]

theorem chunks_flatten {n : ℕ} (hn : 0 < n) {rows : List (List α)}
    (h : ∀ r ∈ rows, r.length = n) : chunks n rows.flatten = rows := by
  have hcount : (rows.flatten.length + n - 1) / n = rows.length := by
    rw [length_flatten h, Nat.add_sub_assoc hn, Nat.add_comm, Nat.add_mul_div_right _ _ hn,
      Nat.div_eq_of_lt (by omega), Nat.zero_add]
  rw [chunks, hcount, map_block_flatten h]

/-! ## Writing -/

/-- `buf[i..i + b.len()].copy_from_slice(b)` -/
def copyAt (buf : List α) (i : ℕ) (b : List α) : Outcome ε (List α) := do
  Outcome.demand (i + b.length ≤ buf.length)
  .ok (buf.take i ++ b ++ buf.drop (i + b.length))

/-- Copying into the middle replaces as much as is copied. -/
theorem copyAt_append {front rest b : List α} {i : ℕ} (hi : front.length = i)
    (hb : b.length ≤ rest.length) :
    (copyAt (front ++ rest) i b : Outcome ε (List α)) =
      .ok (front ++ b ++ rest.drop b.length) := by
  subst hi
  rw [copyAt, Outcome.demand_of (by rw [List.length_append]; omega), Outcome.ok_bind,
    List.take_left, ← List.drop_drop, List.drop_left]

/-- **Blocks one after the other.** A step that puts its block behind what is there puts all of
them. -/
theorem foldlM_append {β : Type} {f : List α → β × ℕ → Outcome ε (List α)} {enc : β → List α}
    {n b k : ℕ} {xs : List β} (henc : ∀ x ∈ xs, (enc x).length = n)
    (hf : ∀ x ∈ xs, ∀ i front rest, front.length = b + i * n → n ≤ rest.length →
      f (front ++ rest) (x, i) = .ok (front ++ enc x ++ rest.drop n))
    {front rest : List α} (hfront : front.length = b + k * n)
    (hrest : xs.length * n ≤ rest.length) :
    (xs.zipIdx k).foldlM f (front ++ rest) =
      .ok (front ++ (xs.map enc).flatten ++ rest.drop (xs.length * n)) := by
  induction xs generalizing k front rest with
  | nil => simp
  | cons x xs ih =>
    obtain ⟨hx, hxs⟩ := List.forall_mem_cons.mp henc
    obtain ⟨hfx, hfxs⟩ := List.forall_mem_cons.mp hf
    rw [List.length_cons, Nat.succ_mul, Nat.add_comm] at hrest
    have hnext : (front ++ enc x).length = b + (k + 1) * n := by
      rw [List.length_append, hfront, hx]
      ring
    have hroom : xs.length * n ≤ (rest.drop n).length := by
      rw [List.length_drop]
      omega
    rw [List.zipIdx_cons, List.foldlM_cons, hfx k front rest hfront (by omega), Outcome.ok_bind,
      ih hxs hfxs hnext hroom, List.map_cons, List.flatten_cons, List.drop_drop, List.length_cons,
      Nat.succ_mul, Nat.add_comm n, List.append_assoc front]

end Blocks
