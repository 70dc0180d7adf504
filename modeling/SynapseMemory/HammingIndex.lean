import SynapseMemory.BoundedHeap
import SynapseMemory.Proto

/-!
# The in-memory Hamming index

The model of `inmem_hamming_index.rs`. Each vector is kept as its signs, eight to a byte, and a
search ranks the rows by the number of signs that differ from those of the query. The best rows are
kept on a bounded heap, from which a row is only put out by a strictly nearer one. In one scan the
rows come in ascending order, so of rows that are as near the first ones stay (`scan_exact`).
From 500000 rows on there is a heap for each part of the rows, and the items of one are offered to
another in the order in which a `BinaryHeap` gives them away, which is none. Then the last place can
go to a later row (`search_exact_iff`).
-/

namespace SynapseMemory

open BoundedHeap

/-! ## Signs -/

/-- `v > 0.0` -/
def isPositive (v : F32) : Bool := 0 < v.toNat && v.toNat ≤ 0x7F800000

/-- The signs of a vector are set, from the byte `base` on. -/
def setSigns (base : ℕ) (bits : List UInt8) (vec : List F32) : List UInt8 :=
  vec.zipIdx.foldl (fun bits x =>
    if isPositive x.1 then
      bits.modify (base + x.2 / 8) (· ||| 1 <<< UInt8.ofNat (x.2 % 8))
    else bits) bits

/-- The code of a vector. -/
def signCode (bpr : ℕ) (vec : List F32) : List UInt8 := setSigns 0 (List.replicate bpr 0) vec

/-- `chunks` and `par_chunks`, with a shorter chunk at the end. -/
def chunks (size : ℕ) (bytes : List UInt8) : List (List UInt8) :=
  (List.range ((bytes.length + (size - 1)) / size)).map fun i => (bytes.drop (i * size)).take size

/-- `InMemoryHammingIndex` -/
structure InMemoryHammingIndex where
  ids : List ℤ
  /-- `bpr` bytes for each row -/
  bits : List UInt8
  bpr : ℕ
  dim : ℕ
  bpr_eq : bpr = (dim + 7) / 8
  length_bits : bits.length = ids.length * bpr

/-! ## Distances -/

/-- The bits that are set in a byte. -/
def countOnes (x : UInt8) : ℕ := (List.range 8).countP x.toNat.testBit

/-- The number of bits that differ. -/
def hammingDistance (q row : List UInt8) : ℕ :=
  ((q.zip row).map fun x => countOnes (x.1 ^^^ x.2)).sum

/-- `u8::hamming` of the crate `simsimd`, with its result as a `u32`. -/
structure Simsimd where
  hamming : List UInt8 → List UInt8 → Option ℕ
  hamming_eq : ∀ a b, a.length = b.length → hammingDistance a b < 2 ^ 32 →
    hamming a b = some (hammingDistance a b)

/-- With or without the feature `simsimd`. -/
inductive HammingKernel where
  | simsimd (s : Simsimd)
  | portable

namespace HammingKernel

/-- `hamming_b8` -/
def hammingB8 (s : Simsimd) (a b : List UInt8) : Option ℕ :=
  if a.length ≠ b.length then none else s.hamming a b

/-- `hamming_u32` -/
def hammingU32 : HammingKernel → List UInt8 → List UInt8 → ℕ
  | simsimd s, q, row => (hammingB8 s q row).getD (2 ^ 32 - 1)
  | portable, q, row =>
    (q.zip row).foldl (fun acc x => (acc + countOnes (x.1 ^^^ x.2)) % 2 ^ 32) 0

/-- The loop adds modulo `2 ^ 32`. -/
theorem foldl_wrapping (l : List ℕ) (a : ℕ) :
    l.foldl (fun acc x => (acc + x) % 2 ^ 32) (a % 2 ^ 32) = (a + l.sum) % 2 ^ 32 := by
  induction l generalizing a with
  | nil => rfl
  | cons x l ih => rw [List.foldl_cons, Nat.mod_add_mod, ih, List.sum_cons, add_assoc]

/-- A distance that is a `u32` is the number of bits that differ. -/
theorem hammingU32_eq (h : HammingKernel) {q row : List UInt8} (hlength : q.length = row.length)
    (hless : hammingDistance q row < 2 ^ 32) : h.hammingU32 q row = hammingDistance q row := by
  cases h with
  | simsimd s => simp [hammingU32, hammingB8, hlength, s.hamming_eq q row hlength hless]
  | portable =>
    have hfold := foldl_wrapping ((q.zip row).map fun x => countOnes (x.1 ^^^ x.2)) 0
    rw [List.foldl_map, Nat.zero_mod, Nat.zero_add] at hfold
    exact hfold.trans (Nat.mod_eq_of_lt hless)

end HammingKernel

/-! ## Building -/

/-- Setting signs changes no length. -/
theorem length_setSigns (base : ℕ) (bits : List UInt8) (vec : List F32) :
    (setSigns base bits vec).length = bits.length := by
  rw [setSigns]
  induction vec.zipIdx generalizing bits with
  | nil => rfl
  | cons x l ih =>
    rw [List.foldl_cons, ih]
    split <;> simp

/-- The signs of all rows are set, one row after the other. -/
def setRows (bpr : ℕ) (bits : List UInt8) (rows : List (ℤ × List F32)) : List UInt8 :=
  rows.zipIdx.foldl (fun bits row => setSigns (row.2 * bpr) bits row.1.2) bits

theorem length_setRows (bpr : ℕ) (bits : List UInt8) (rows : List (ℤ × List F32)) :
    (setRows bpr bits rows).length = bits.length := by
  rw [setRows]
  induction rows.zipIdx generalizing bits with
  | nil => rfl
  | cons row l ih => rw [List.foldl_cons, ih, length_setSigns]

/-- A byte of a window is changed in place. -/
theorem modify_window {before window after : List UInt8} {i : ℕ} (hi : i < window.length)
    (f : UInt8 → UInt8) : (before ++ window ++ after).modify (before.length + i) f =
      before ++ window.modify i f ++ after := by
  apply List.ext_getElem?
  intro j
  grind

/-- The signs of a vector are set in a window of the bytes. -/
theorem setSigns_window {before window after : List UInt8} {vec : List F32}
    (hfit : vec.length ≤ 8 * window.length) :
    setSigns before.length (before ++ window ++ after) vec =
      before ++ setSigns 0 window vec ++ after := by
  have hplaces : ∀ x ∈ vec.zipIdx, x.2 / 8 < window.length := by
    intro x hx
    have hless := List.snd_lt_of_mem_zipIdx hx
    omega
  clear hfit
  rw [setSigns, setSigns]
  generalize vec.zipIdx = places at hplaces ⊢
  induction places generalizing window with
  | nil => rfl
  | cons x l ih =>
    have hx := hplaces x List.mem_cons_self
    have hl := fun y hy => hplaces y (List.mem_cons_of_mem x hy)
    rw [List.foldl_cons, List.foldl_cons, Nat.zero_add]
    by_cases hpos : isPositive x.1
    · rw [if_pos hpos, if_pos hpos, modify_window hx]
      exact ih (by simpa using hl)
    · rw [if_neg hpos, if_neg hpos]
      exact ih hl

/-- After the rows, the bytes are their codes. -/
theorem setRows_eq {bpr : ℕ} {rows : List (ℤ × List F32)}
    (hfit : ∀ row ∈ rows, row.2.length ≤ 8 * bpr) :
    setRows bpr (List.replicate (rows.length * bpr) 0) rows =
      (rows.map fun row => signCode bpr row.2).flatten := by
  have hrun : ∀ (done : List UInt8) (i : ℕ), done.length = i * bpr →
      (rows.zipIdx i).foldl (fun bits row => setSigns (row.2 * bpr) bits row.1.2)
        (done ++ List.replicate (rows.length * bpr) 0) =
          done ++ (rows.map fun row => signCode bpr row.2).flatten := by
    induction rows with
    | nil => simp
    | cons row rest ih =>
      intro done i hdone
      have hrow : row.2.length ≤ 8 * (List.replicate bpr (0 : UInt8)).length := by
        simpa using hfit row List.mem_cons_self
      have hwindow : setSigns done.length (done ++ List.replicate bpr 0 ++
          List.replicate (rest.length * bpr) 0) row.2 =
            done ++ signCode bpr row.2 ++ List.replicate (rest.length * bpr) 0 :=
        setSigns_window hrow
      rw [List.length_cons, Nat.succ_mul, Nat.add_comm, List.replicate_add, ← List.append_assoc,
        List.zipIdx_cons, List.foldl_cons, ← hdone, hwindow]
      have hnext := ih (fun r hr => hfit r (List.mem_cons_of_mem row hr))
        (done ++ signCode bpr row.2) (i + 1)
        (by simp [signCode, length_setSigns, hdone, Nat.succ_mul])
      rw [List.map_cons, List.flatten_cons, ← List.append_assoc]
      exact hnext
  simpa [setRows] using hrun [] 0 (by simp)

/-- A chunk of blocks that are as long is one of the blocks. -/
theorem block_of_flatten {size : ℕ} {blocks : List (List UInt8)}
    (hsize : ∀ b ∈ blocks, b.length = size) {i : ℕ} (hi : i < blocks.length) :
    (blocks.flatten.drop (i * size)).take size = blocks[i] := by
  induction blocks generalizing i with
  | nil => exact absurd hi (Nat.not_lt_zero i)
  | cons b blocks ih =>
    have hb := hsize b List.mem_cons_self
    cases i with
    | zero => simp [List.take_left' hb]
    | succ i =>
      rw [List.flatten_cons, Nat.succ_mul, Nat.add_comm, ← List.drop_drop, List.drop_left' hb]
      simpa using ih (fun c hc => hsize c (List.mem_cons_of_mem b hc)) (by simpa using hi)

namespace InMemoryHammingIndex

/-- No index of ragged rows. -/
def build : List (ℤ × List F32) → Option InMemoryHammingIndex
  | [] => some ⟨[], [], 0, 0, rfl, rfl⟩
  | first :: rest =>
    let rows := first :: rest
    let dim := first.2.length
    let bpr := (dim + 7) / 8
    if rows.all fun row => row.2.length == dim then
      some ⟨rows.map Prod.fst, setRows bpr (List.replicate (rows.length * bpr) 0) rows, bpr, dim,
        rfl, by rw [length_setRows, List.length_replicate, List.length_map]⟩
    else none

/-- `len` -/
def len (index : InMemoryHammingIndex) : ℕ := index.ids.length

/-- `is_empty` -/
def isEmpty (index : InMemoryHammingIndex) : Bool := index.ids.isEmpty

/-- `position_of` -/
def positionOf (index : InMemoryHammingIndex) (id : ℤ) : Option ℕ :=
  index.ids.findIdx? (· == id)

/-- `rows` -/
def rows (index : InMemoryHammingIndex) : List (List UInt8) := chunks index.bpr index.bits

/-! ## Searching -/

/-- From here on the search is split. -/
def singleThreadThreshold : ℕ := 500000

section Search

variable (index : InMemoryHammingIndex) (h : HammingKernel) (query : List F32)

/-- The rows with their distances, in the order of pairs. -/
def items : List (ℕ ×ₗ ℕ) :=
  index.rows.zipIdx.map fun row => toLex (h.hammingU32 (signCode index.bpr query) row.1, row.2)

/-- The distance is the first part of an item of the heap. -/
def distance (item : ℕ ×ₗ ℕ) : ℕ := (ofLex item).1

/-- The best rows, where `plan` is how the rows are split. None if the number of rows is divided by
`0`. -/
def topk (plan : Split (ℕ ×ₗ ℕ)) (k : ℕ) : Option (List (ℕ ×ₗ ℕ)) :=
  if index.isEmpty || query.length != index.dim || k == 0 then some []
  else if index.bpr = 0 then none
  else
    let n := index.bits.length / index.bpr
    let k := min k n
    if singleThreadThreshold ≤ n then
      some (plan.run distance k (index.items h query)).items
    else some (offerAll distance k .empty (index.items h query)).items

/-- A row as it is returned. -/
def answer (item : ℕ ×ₗ ℕ) : Option (ℤ × ℕ) :=
  (index.ids[(ofLex item).2]?).map fun id => (id, distance item)

/-- `search`. It is `none` if a row has no id, or if `topk` is. -/
def search (plan : Split (ℕ ×ₗ ℕ)) (k : ℕ) : Option (List (ℤ × ℕ)) :=
  (index.topk h query plan k).bind fun topk => topk.mapM index.answer

end Search

/-! ## The rows of an index -/

section Rows

variable (index : InMemoryHammingIndex) (h : HammingKernel) (query : List F32)

/-- The bytes of a row. -/
def row (i : ℕ) : List UInt8 := (index.bits.drop (i * index.bpr)).take index.bpr

/-- A row with its distance. -/
def item (i : ℕ) : ℕ ×ₗ ℕ := toLex (h.hammingU32 (signCode index.bpr query) (index.row i), i)

variable {index h query}

/-- There are as many chunks as rows. -/
theorem chunks_count (hbpr : index.bpr ≠ 0) :
    (index.bits.length + (index.bpr - 1)) / index.bpr = index.len := by
  have hpos := Nat.pos_of_ne_zero hbpr
  rw [index.length_bits, mul_comm, Nat.mul_add_div hpos, Nat.div_eq_of_lt (by omega)]
  rfl

theorem rows_count (hbpr : index.bpr ≠ 0) : index.bits.length / index.bpr = index.len := by
  rw [index.length_bits, Nat.mul_div_cancel _ (Nat.pos_of_ne_zero hbpr), len]

theorem rows_eq (hbpr : index.bpr ≠ 0) : index.rows = (List.range index.len).map index.row := by
  rw [rows, chunks, chunks_count hbpr]
  rfl

/-- The rows of an index that is built are the codes of the vectors. -/
theorem build_rows {vectors : List (ℤ × List F32)} (hbuild : build vectors = some index)
    (hbpr : index.bpr ≠ 0) :
    index.rows = vectors.map fun v => signCode index.bpr v.2 := by
  cases vectors with
  | nil =>
    cases hbuild
    exact absurd rfl hbpr
  | cons first rest =>
    simp only [build] at hbuild
    split at hbuild
    · rename_i hdim
      obtain rfl := Option.some.inj hbuild
      have hfit : ∀ v ∈ first :: rest, v.2.length ≤ 8 * ((first.2.length + 7) / 8) := by
        intro v hv
        have hlength := List.all_eq_true.mp hdim v hv
        rw [beq_iff_eq] at hlength
        omega
      have hblocks : ∀ b ∈ (first :: rest).map fun v => signCode ((first.2.length + 7) / 8) v.2,
          b.length = (first.2.length + 7) / 8 := by
        intro b hb
        obtain ⟨v, -, rfl⟩ := List.mem_map.mp hb
        rw [signCode, length_setSigns, List.length_replicate]
      rw [rows_eq hbpr]
      refine List.ext_getElem (by simp [len]) fun i hi _ => ?_
      have hlt : i < ((first :: rest).map fun v =>
          signCode ((first.2.length + 7) / 8) v.2).length := by simpa [len] using hi
      have hblock := block_of_flatten hblocks hlt
      rw [← setRows_eq hfit] at hblock
      rw [List.getElem_map, List.getElem_range]
      exact hblock
    · cases hbuild

/-- The items, one for each row. -/
theorem items_eq (hbpr : index.bpr ≠ 0) :
    index.items h query = (List.range index.len).map (index.item h query) := by
  rw [items, rows_eq hbpr]
  refine List.ext_getElem (by simp) fun i _ _ => ?_
  simp [item]

theorem distance_mono : Monotone distance := Prod.Lex.monotone_fst_ofLex

theorem pairwise_items (hbpr : index.bpr ≠ 0) :
    (index.items h query).Pairwise fun x y => (ofLex x).2 < (ofLex y).2 := by
  rw [items_eq hbpr, List.pairwise_map]
  exact List.pairwise_lt_range

theorem nodup_items (hbpr : index.bpr ≠ 0) : (index.items h query).Nodup :=
  (pairwise_items hbpr).imp fun {x y} hlt (heq : x = y) => hlt.ne (congrArg _ heq)

/-- The rows come in the order that breaks their ties. -/
theorem items_order (hbpr : index.bpr ≠ 0) :
    (index.items h query).Pairwise fun x y => distance x ≤ distance y → x ≤ y := by
  refine (pairwise_items hbpr).imp fun {x y} hlt hle => Prod.Lex.le_iff.mpr ?_
  rcases lt_or_eq_of_le hle with hless | heq
  · exact .inl hless
  · exact .inr ⟨heq, hlt.le⟩

/-- Three rows of an index, from the first to the last. -/
theorem sublist_items_iff (hbpr : index.bpr ≠ 0) (p : ℕ ×ₗ ℕ → ℕ ×ₗ ℕ → ℕ ×ₗ ℕ → Prop) :
    (∃ s r e, [s, r, e].Sublist (index.items h query) ∧ p s r e) ↔
      ∃ s r e, s < r ∧ r < e ∧ e < index.len ∧
        p (index.item h query s) (index.item h query r) (index.item h query e) := by
  rw [items_eq hbpr]
  constructor
  · rintro ⟨s, r, e, hsub, hp⟩
    obtain ⟨l, hl, heq⟩ := List.sublist_map_iff.mp hsub
    obtain ⟨i, j, m, rfl⟩ : ∃ i j m, l = [i, j, m] := by
      have hlength := congrArg List.length heq
      rw [List.length_map] at hlength
      exact List.length_eq_three.mp hlength.symm
    simp only [List.map_cons, List.map_nil, List.cons.injEq, and_true] at heq
    obtain ⟨rfl, rfl, rfl⟩ := heq
    have hsorted := List.pairwise_lt_range.sublist hl
    have hlast : m < index.len := List.mem_range.mp (hl.subset (by simp))
    simp only [List.pairwise_cons, List.mem_cons, forall_eq_or_imp] at hsorted
    exact ⟨i, j, m, hsorted.1.1, hsorted.2.1.1, hlast, hp⟩
  · rintro ⟨s, r, e, hsr, hre, he, hp⟩
    suffices hsub : [s, r, e].Sublist (List.range index.len) from ⟨_, _, _, hsub.map _, hp⟩
    refine List.sublist_of_subperm_of_pairwise (r := (· < ·)) ?_ ?_ List.pairwise_lt_range
    · refine List.subperm_of_subset ?_ ?_
      · simp
        omega
      · simp
        omega
    · simp
      omega

end Rows

/-! ## What a search returns -/

section Exact

variable {index : InMemoryHammingIndex} {h : HammingKernel} {query : List F32} {k : ℕ}

/-- The distance of a row is the number of bits that differ, if it is a `u32`. -/
theorem distance_item {i : ℕ} (hi : i < index.len)
    (hless : hammingDistance (signCode index.bpr query) (index.row i) < 2 ^ 32) :
    distance (index.item h query i) =
      hammingDistance (signCode index.bpr query) (index.row i) := by
  refine h.hammingU32_eq ?_ hless
  have hend : (i + 1) * index.bpr ≤ index.len * index.bpr := Nat.mul_le_mul_right _ hi
  rw [Nat.succ_mul] at hend
  rw [signCode, length_setSigns, List.length_replicate, row, List.length_take, List.length_drop,
    index.length_bits, min_eq_left]
  exact Nat.le_sub_of_add_le (by rwa [Nat.add_comm])

/-- No row for no query of the index. -/
theorem topk_guard (hguard : index.ids = [] ∨ query.length ≠ index.dim ∨ k = 0)
    (plan : Split (ℕ ×ₗ ℕ)) : index.topk h query plan k = some [] := by
  have htest : (index.isEmpty || query.length != index.dim || k == 0) = true := by
    rcases hguard with hids | hdim | rfl
    · simp [isEmpty, hids]
    · simp [hdim]
    · simp
  rw [topk, if_pos htest]

section Found

variable (hids : index.ids ≠ []) (hdim : query.length = index.dim) (hk : k ≠ 0)
include hids hdim hk

theorem not_guard : ¬(index.isEmpty || query.length != index.dim || k == 0) = true := by
  simp [isEmpty, hids, hdim, hk]

/-- Rows of no bytes cannot be counted. -/
theorem topk_panic (hbpr : index.bpr = 0) (plan : Split (ℕ ×ₗ ℕ)) :
    index.topk h query plan k = none := by
  rw [topk, if_neg (not_guard hids hdim hk), if_pos hbpr]

/-- A large index is split. -/
theorem topk_split (hbpr : index.bpr ≠ 0) (hlarge : singleThreadThreshold ≤ index.len)
    (plan : Split (ℕ ×ₗ ℕ)) : index.topk h query plan k =
      some (plan.run distance (min k index.len) (index.items h query)).items := by
  rw [topk, if_neg (not_guard hids hdim hk), if_neg hbpr, rows_count hbpr, if_pos hlarge]

theorem topk_scan (hbpr : index.bpr ≠ 0) (hsmall : index.len < singleThreadThreshold)
    (plan : Split (ℕ ×ₗ ℕ)) : index.topk h query plan k =
      some (offerAll distance (min k index.len) .empty (index.items h query)).items := by
  rw [topk, if_neg (not_guard hids hdim hk), if_neg hbpr, rows_count hbpr,
    if_neg (not_le.mpr hsmall)]

end Found

variable (index) in
/-- A row as it is returned, of which the id is there. -/
def found (item : ℕ ×ₗ ℕ) : ℤ × ℕ := (index.ids.getD (ofLex item).2 0, distance item)

theorem items_of_bpr_eq_zero (hbpr : index.bpr = 0) : index.items h query = [] := by
  simp [items, rows, chunks, hbpr]

theorem items_of_ids_eq_nil (hids : index.ids = []) : index.items h query = [] := by
  by_cases hbpr : index.bpr = 0
  · exact items_of_bpr_eq_zero hbpr
  · simp [items_eq hbpr, len, hids]

/-- An item has the number of a row. -/
theorem index_lt_of_mem {x : ℕ ×ₗ ℕ} (hx : x ∈ index.items h query) :
    (ofLex x).2 < index.ids.length := by
  by_cases hbpr : index.bpr = 0
  · simp [items_of_bpr_eq_zero hbpr] at hx
  · rw [items_eq hbpr] at hx
    obtain ⟨i, hi, rfl⟩ := List.mem_map.mp hx
    exact List.mem_range.mp hi

/-- A search does not miss the id of a row. -/
theorem mapM_answer {l : List (ℕ ×ₗ ℕ)} (hl : ∀ x ∈ l, (ofLex x).2 < index.ids.length) :
    l.mapM index.answer = some (l.map index.found) := by
  induction l with
  | nil => rfl
  | cons x l ih =>
    have hx : index.answer x = some (index.found x) := by
      simp [answer, found, List.getElem?_eq_getElem (hl x List.mem_cons_self)]
    rw [List.mapM_cons, hx, ih fun y hy => hl y (List.mem_cons_of_mem x hy)]
    rfl

/-- If `topk` finds the nearest rows, the search returns them. -/
theorem search_eq {plan : Split (ℕ ×ₗ ℕ)}
    (htopk : index.topk h query plan k = some (nearest k (index.items h query))) :
    index.search h query plan k = some ((nearest k (index.items h query)).map index.found) := by
  rw [search, htopk, Option.bind_some]
  refine mapM_answer fun x hx => ?_
  have hmem : x ∈ index.items h query :=
    (List.mergeSort_perm _ _).mem_iff.mp (List.mem_of_mem_take hx)
  exact index_lt_of_mem hmem

/-- The `k`-th best row has a row that is not farther before it and a row that is as near after
it. -/
def TiedAround (index : InMemoryHammingIndex) (h : HammingKernel) (query : List F32) (k : ℕ) :
    Prop :=
  ∃ s r e, s < r ∧ r < e ∧ e < index.len ∧
    distance (index.item h query s) ≤ distance (index.item h query r) ∧
    distance (index.item h query e) = distance (index.item h query r) ∧
    ((List.range index.len).countP fun i => index.item h query i ≤ index.item h query r) = k

/-- Asking for more rows than there are gives all of them. -/
theorem nearest_min (hbpr : index.bpr ≠ 0) :
    nearest (min k index.len) (index.items h query) = nearest k (index.items h query) := by
  have hlength : ((index.items h query).mergeSort (· ≤ ·)).length = index.len := by
    rw [List.length_mergeSort, items_eq hbpr, List.length_map, List.length_range]
  rw [nearest, nearest, ← hlength, ← List.take_eq_take_min]

/-- One scan over the rows is exact. -/
theorem scan_exact (hbpr : index.bpr ≠ 0) (hids : index.ids ≠ []) (hk : k ≠ 0) :
    (offerAll distance (min k index.len) .empty (index.items h query)).items =
      nearest k (index.items h query) := by
  have hlen : 0 < index.len := List.length_pos_iff.mpr hids
  rw [← nearest_min hbpr]
  refine offerAll_empty_items (by omega) distance_mono (nodup_items hbpr) ?_ (items_order hbpr)
  simp [items_eq hbpr]

/-- All splits are exact if there is no tie around the last place. -/
theorem split_exact_iff (hbpr : index.bpr ≠ 0) (hids : index.ids ≠ []) (hk : k ≠ 0) :
    (∀ plan : Split (ℕ ×ₗ ℕ), (plan.run distance (min k index.len) (index.items h query)).items =
      nearest k (index.items h query)) ↔ ¬TiedAround index h query (min k index.len) := by
  have hlen : 0 < index.len := List.length_pos_iff.mpr hids
  rw [← nearest_min hbpr, Split.run_eq_nearest_iff (by omega) distance_mono (nodup_items hbpr)
    (by simp [items_eq hbpr]) (items_order hbpr), sublist_items_iff hbpr]
  simp only [TiedAround, items_eq hbpr, List.countP_map]
  rfl

theorem bpr_ne_zero (hdim : index.dim ≠ 0) : index.bpr ≠ 0 := by
  rw [index.bpr_eq]
  omega

/-- **When a search returns the nearest rows.** -/
theorem search_exact_iff (h : HammingKernel) (index : InMemoryHammingIndex) {query : List F32}
    (hquery : query.length = index.dim) (k : ℕ) :
    (∀ i < index.len, hammingDistance (signCode index.bpr query) (index.row i) < 2 ^ 32 →
      distance (index.item h query i) =
        hammingDistance (signCode index.bpr query) (index.row i)) ∧
    ((∀ plan, index.topk h query plan k = some (nearest k (index.items h query)) ∧
        index.search h query plan k =
          some ((nearest k (index.items h query)).map index.found)) ↔
      index.ids = [] ∨ k = 0 ∨ index.dim ≠ 0 ∧
        (index.len < singleThreadThreshold ∨
          ¬TiedAround index h query (min k index.len))) := by
  refine ⟨fun i => distance_item, ?_⟩
  have htopk : (∀ plan, index.topk h query plan k = some (nearest k (index.items h query)) ∧
        index.search h query plan k =
          some ((nearest k (index.items h query)).map index.found)) ↔
      ∀ plan, index.topk h query plan k = some (nearest k (index.items h query)) :=
    forall_congr' fun plan => and_iff_left_of_imp search_eq
  rw [htopk]
  by_cases hids : index.ids = []
  · simp [topk_guard (.inl hids), items_of_ids_eq_nil hids, nearest, hids]
  by_cases hk : k = 0
  · subst hk
    have hnone : ∀ plan, index.topk h query plan 0 = some [] := topk_guard (.inr (.inr rfl))
    simp [hnone, nearest]
  by_cases hdim : index.dim = 0
  · have hbpr : index.bpr = 0 := by rw [index.bpr_eq, hdim]
    have hplan : Nonempty (Split (ℕ ×ₗ ℕ)) := ⟨.leaf (.same _)⟩
    simp [topk_panic hids hquery hk hbpr, hids, hk, hdim]
  have hbpr := bpr_ne_zero hdim
  by_cases hsmall : index.len < singleThreadThreshold
  · simp [topk_scan hids hquery hk hbpr hsmall, scan_exact hbpr hids hk, hdim, hsmall]
  · simp only [topk_split hids hquery hk hbpr (not_lt.mp hsmall), Option.some.injEq,
      split_exact_iff hbpr hids hk, hids, hk, hdim, hsmall, false_or, ne_eq, not_false_eq_true,
      true_and]

end Exact

/-- Two vectors, of which the first one is as the query. -/
def twoRows : InMemoryHammingIndex := ⟨[7, 8], [1, 3], 1, 8, rfl, rfl⟩

/-- Two rows, of which the first is as the query. -/
theorem search_exact_iff_twoRows :
    [0x3F800000#32, 0, 0, 0, 0, 0, 0, 0].length = twoRows.dim ∧ ∀ plan,
      twoRows.search .portable [0x3F800000#32, 0, 0, 0, 0, 0, 0, 0] plan 1 = some [(7, 0)] := by
  have hquery : [0x3F800000#32, 0, 0, 0, 0, 0, 0, 0].length = twoRows.dim := rfl
  have hexact := (search_exact_iff .portable twoRows hquery 1).2.mpr
    (.inr (.inr ⟨by decide, .inl (by decide)⟩))
  refine ⟨hquery, fun plan => (hexact plan).2.trans ?_⟩
  have hitems : twoRows.items .portable [0x3F800000#32, 0, 0, 0, 0, 0, 0, 0] =
      [toLex (0, 0), toLex (1, 1)] := by decide
  rw [hitems, nearest, List.mergeSort_of_pairwise (by decide)]
  rfl

/-- The first row is as the query, two rows in the second half differ from it in one sign, and all
others in every sign. -/
def tiedCode (i : ℕ) : UInt8 := if i = 0 then 0 else if i = 250000 ∨ i = 250001 then 1 else 255

/-- Half a million rows. The same few codes come again and again. -/
def tiedRows : InMemoryHammingIndex where
  ids := (List.range 500000).map Int.ofNat
  bits := (List.range 500000).map tiedCode
  bpr := 1
  dim := 8
  bpr_eq := rfl
  length_bits := by rw [List.length_map, List.length_map, Nat.mul_one]

/-- A query without a positive entry. -/
def noSigns : List F32 := List.replicate 8 0

theorem len_tiedRows : tiedRows.len = 500000 := by
  rw [len, tiedRows, List.length_map, List.length_range]

/-- How far each of these rows is. -/
theorem distance_tiedRows {i : ℕ} (hi : i < 500000) :
    tiedRows.item .portable noSigns i =
      toLex (if i = 0 then 0 else if i = 250000 ∨ i = 250001 then 1 else 8, i) := by
  have hrow : tiedRows.row i = [tiedCode i] := by
    have hlength : i < ((List.range 500000).map tiedCode).length := by
      rwa [List.length_map, List.length_range]
    rw [row]
    simp only [tiedRows, Nat.mul_one]
    rw [List.drop_eq_getElem_cons hlength, List.take_succ_cons, List.take_zero, List.getElem_map,
      List.getElem_range]
  have hcode : signCode 1 noSigns = [0] := by decide
  rw [item, hrow]
  simp only [tiedRows, hcode, tiedCode]
  split_ifs <;> rfl

/-- Two items do not come after the second nearest one. -/
theorem countP_tiedRows : ((List.range 500000).countP fun i =>
    tiedRows.item .portable noSigns i ≤
      tiedRows.item .portable noSigns 250000) = 2 := by
  have hperm : ((List.range 500000).filter fun i =>
      decide (tiedRows.item .portable noSigns i ≤
        tiedRows.item .portable noSigns 250000)).Perm [0, 250000] := by
    refine (List.perm_ext_iff_of_nodup (List.nodup_range.filter _) (by simp)).mpr fun i => ?_
    rw [List.mem_filter, List.mem_range, decide_eq_true_iff]
    constructor
    · rintro ⟨hi, hle⟩
      rw [distance_tiedRows hi, distance_tiedRows (by norm_num), Prod.Lex.toLex_le_toLex] at hle
      simp only [List.mem_cons, List.not_mem_nil, or_false]
      split_ifs at hle <;> simp at hle <;> omega
    · intro hi
      simp only [List.mem_cons, List.not_mem_nil, or_false] at hi
      rcases hi with rfl | rfl
      · refine ⟨by norm_num, ?_⟩
        rw [distance_tiedRows (by norm_num), distance_tiedRows (by norm_num),
          Prod.Lex.toLex_le_toLex]
        simp
      · exact ⟨by norm_num, le_rfl⟩
  rw [List.countP_eq_length_filter, hperm.length_eq]
  rfl

/-- The id of a row is its number, so the rows can be told from what is returned. -/
theorem map_found_tiedRows {l : List (ℕ ×ₗ ℕ)}
    (hl : ∀ x ∈ l, (ofLex x).2 < tiedRows.ids.length) :
    (l.map tiedRows.found).map (fun y => toLex (y.2, y.1.toNat)) = l := by
  rw [List.map_map]
  refine (List.map_congr_left fun x hx => ?_).trans (List.map_id l)
  have hid : tiedRows.ids.getD (ofLex x).2 0 = Int.ofNat (ofLex x).2 := by
    rw [List.getD_eq_getElem _ _ (hl x hx)]
    simp only [tiedRows, List.getElem_map, List.getElem_range]
  rw [Function.comp_apply, found, hid]
  rfl

/-- Of the two rows as near, the later one is returned. -/
theorem search_tiedRows : ∃ plan,
    tiedRows.search .portable noSigns plan 2 ≠
      some ((nearest 2 (tiedRows.items .portable noSigns)).map tiedRows.found) := by
  have hbpr : tiedRows.bpr ≠ 0 := one_ne_zero
  have hids : tiedRows.ids ≠ [] := by
    rw [← List.length_pos_iff, ← len, len_tiedRows]
    norm_num
  have hmin : min 2 tiedRows.len = 2 := by rw [len_tiedRows]; norm_num
  have htied : TiedAround tiedRows .portable noSigns 2 := by
    refine ⟨0, 250000, 250001, by norm_num, by norm_num, by rw [len_tiedRows]; norm_num, ?_, ?_, ?_⟩
    · rw [distance_tiedRows (by norm_num), distance_tiedRows (by norm_num)]
      exact Nat.zero_le _
    · rw [distance_tiedRows (by norm_num), distance_tiedRows (by norm_num)]
      rfl
    · rw [len_tiedRows]
      exact countP_tiedRows
  have hsplit : ¬∀ plan : Split (ℕ ×ₗ ℕ),
      (plan.run distance 2 (tiedRows.items .portable noSigns)).items =
        nearest 2 (tiedRows.items .portable noSigns) := by
    rw [← hmin] at htied
    have hnot := (split_exact_iff hbpr hids two_ne_zero).not.mpr (not_not.mpr htied)
    rwa [hmin] at hnot
  obtain ⟨plan, hne⟩ := not_forall.mp hsplit
  refine ⟨plan, fun heq => hne ?_⟩
  have htopk : tiedRows.topk .portable noSigns plan 2 =
      some (plan.run distance (min 2 tiedRows.len) (tiedRows.items .portable noSigns)).items :=
    topk_split hids rfl two_ne_zero hbpr (by rw [len_tiedRows]; exact le_rfl) plan
  rw [hmin] at htopk
  have hmem : ∀ x ∈ (plan.run distance 2
      (tiedRows.items .portable noSigns)).items, (ofLex x).2 < tiedRows.ids.length :=
    fun x hx => index_lt_of_mem ((Split.subperm_run two_pos plan _).subset hx)
  have hmemn : ∀ x ∈ nearest 2 (tiedRows.items .portable noSigns),
      (ofLex x).2 < tiedRows.ids.length := fun x hx =>
    index_lt_of_mem ((List.mergeSort_perm _ _).mem_iff.mp (List.mem_of_mem_take hx))
  rw [search, htopk, Option.bind_some, mapM_answer hmem, Option.some.injEq] at heq
  rw [← map_found_tiedRows hmem, heq, map_found_tiedRows hmemn]

end InMemoryHammingIndex

end SynapseMemory
