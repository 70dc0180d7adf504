import SynapseMemory.Blocks
import SynapseMemory.Bytes
import SynapseMemory.Quantization

/-!
# Token vectors

The model of `synapse-colbert`. A document has a vector for each token, and its score for a query is
the sum, over the vectors of the query, of the greatest dot product with a vector of the document.
The vectors are stored as bytes, one row after the other, with a scale for each row.

A row of such a blob is found by a division, since the length of a row is not stored. The rows come
back if they have one length (`loadVecsI8_quant`), and the scores of what was stored are near those
of the vectors themselves (`colbertRerankI8_near`).

Numbers are exact, and a scale is one entry of its blob.
-/

namespace SynapseMemory.Colbert

open Quantization Blocks

/-! ## The dot product -/

section Loop

variable {R : Type} [CommRing R] {reduce : R → R}

/-- `dot`, `dot_i8_scalar`: four sums, and what is left over goes to the first. -/
def dotLoop (reduce : R → R) (acc0 acc1 acc2 acc3 : R) : List R → List R → R
  | a0 :: a1 :: a2 :: a3 :: a, b0 :: b1 :: b2 :: b3 :: b =>
    dotLoop reduce (reduce (acc0 + a0 * b0)) (reduce (acc1 + a1 * b1)) (reduce (acc2 + a2 * b2))
      (reduce (acc3 + a3 * b3)) a b
  | a0 :: a, b0 :: b => dotLoop reduce (reduce (acc0 + a0 * b0)) acc1 acc2 acc3 a b
  | _, _ => reduce (reduce (acc0 + acc1) + reduce (acc2 + acc3))

/-- Sums may be reduced first. -/
theorem reduce_add (h : ∀ x y, reduce (reduce x + y) = reduce (x + y)) (x y : R) :
    reduce (reduce x + reduce y) = reduce (x + y) := by
  rw [h, add_comm, h, add_comm]

theorem reduce_congr (h : ∀ x y, reduce (reduce x + y) = reduce (x + y)) {x y z w : R}
    (hx : reduce x = reduce z) (hy : reduce y = reduce w) : reduce (x + y) = reduce (z + w) := by
  rw [← reduce_add h, hx, hy, reduce_add h]

/-- The four accumulators together hold the whole sum. -/
theorem dotLoop_eq (h : ∀ x y, reduce (reduce x + y) = reduce (x + y)) (a b : List R)
    (acc0 acc1 acc2 acc3 : R) : dotLoop reduce acc0 acc1 acc2 acc3 a b =
      reduce (acc0 + acc1 + acc2 + acc3 + (List.zipWith (· * ·) a b).sum) := by
  fun_induction dotLoop reduce acc0 acc1 acc2 acc3 a b with
  | case1 acc0 acc1 acc2 acc3 a0 a1 a2 a3 a b0 b1 b2 b3 b ih =>
    have hreduce (x : R) : reduce (reduce x) = reduce x := by simpa using h x 0
    have hsum : reduce (reduce (acc0 + a0 * b0) + reduce (acc1 + a1 * b1) +
        reduce (acc2 + a2 * b2) + reduce (acc3 + a3 * b3) + (List.zipWith (· * ·) a b).sum) =
        reduce ((acc0 + a0 * b0) + (acc1 + a1 * b1) + (acc2 + a2 * b2) + (acc3 + a3 * b3) +
          (List.zipWith (· * ·) a b).sum) :=
      reduce_congr h (reduce_congr h (reduce_congr h (reduce_congr h (hreduce _) (hreduce _))
        (hreduce _)) (hreduce _)) rfl
    rw [ih, hsum]
    simp only [List.zipWith_cons_cons, List.sum_cons]
    congr 1
    ring
  | case2 acc0 acc1 acc2 acc3 a0 a b0 b _ ih =>
    rw [ih, add_assoc, add_assoc, add_assoc, h]
    simp only [List.zipWith_cons_cons, List.sum_cons]
    congr 1
    ring
  | case3 a acc0 acc1 acc2 acc3 b hfour hdone =>
    have hsum : (List.zipWith (· * ·) a b).sum = 0 := by
      cases a with
      | nil => rfl
      | cons a0 a =>
        cases b with
        | nil => rfl
        | cons b0 b => exact absurd rfl (hdone a0 a b0 b rfl)
    rw [hsum, reduce_add h, add_zero, ← add_assoc]

end Loop

/-- `i32` -/
def wrap (x : ℤ) : ℤ := Int.bmod x (2 ^ 32)

theorem wrap_wrap_add (x y : ℤ) : wrap (wrap x + y) = wrap (x + y) := Int.bmod_add_bmod

theorem wrap_of_abs_lt {x : ℤ} (h : |x| < 2 ^ 31) : wrap x = x := by
  rw [abs_lt] at h
  exact Int.bmod_eq_of_le (by norm_num; omega) (by norm_num; omega)

/-- `dot_i8_scalar`: four sums at a time, each with what does not fit cut off. -/
def dotI8 (a b : List ℤ) : ℤ := dotLoop wrap 0 0 0 0 a b

/-- **The loop is the dot product**, unless it is too long for its type. -/
theorem dotI8_eq {a b : List ℤ} (ha : ∀ x ∈ a, |x| ≤ 127) (hb : ∀ x ∈ b, |x| ≤ 127)
    (hless : a.length * 127 ^ 2 < 2 ^ 31) : dotI8 a b = (List.zipWith (· * ·) a b).sum := by
  have hbound : |(List.zipWith (· * ·) a b).sum| ≤ a.length * 127 ^ 2 := by
    clear hless
    induction a generalizing b with
    | nil => simp
    | cons x a ih =>
      cases b with
      | nil => simp
      | cons y b =>
        obtain ⟨hx, ha⟩ := List.forall_mem_cons.mp ha
        obtain ⟨hy, hb⟩ := List.forall_mem_cons.mp hb
        have hxy : |x * y| ≤ 127 ^ 2 := by
          rw [abs_mul, sq]
          exact mul_le_mul hx hy (abs_nonneg y) (by norm_num)
        rw [List.zipWith_cons_cons, List.sum_cons, List.length_cons]
        have htri := abs_add_le (x * y) (List.zipWith (· * ·) a b).sum
        have hrest := ih ha hb
        push_cast
        omega
  rw [dotI8, dotLoop_eq wrap_wrap_add]
  simp only [zero_add]
  exact wrap_of_abs_lt (by omega)

/-! ## Scores -/

section Scores

variable {α : Type} [Field α] [LinearOrder α] [IsStrictOrderedRing α]

omit [IsStrictOrderedRing α] in
/-- The sum of the greatest products. The first maximum is taken with negative infinity. -/
def maxSimBy {V W : Type} (product : V → W → α) (queryVecs : List V) : List W → α
  | [] => 0
  | d :: ds =>
    (queryVecs.map fun q => ds.foldl (fun a d => max a (product q d)) (product q d)).sum

/-- `dot` -/
def dotF32 (a b : List α) : α := dotLoop id 0 0 0 0 a b

omit [LinearOrder α] [IsStrictOrderedRing α] in
/-- The loop computes the dot product. -/
theorem dotF32_eq (a b : List α) : dotF32 a b = dot a b := by
  have hloop : dotLoop id 0 0 0 0 a b = 0 + 0 + 0 + 0 + (List.zipWith (· * ·) a b).sum :=
    dotLoop_eq (fun _ _ => rfl) a b 0 0 0 0
  rw [dotF32, hloop, dot]
  simp

/-- `max_sim` -/
def maxSim (queryVecs docVecs : List (List α)) : α := maxSimBy dotF32 queryVecs docVecs

/-- The numbers of a vector, and its scale. -/
abbrev QuantizedTokenVec (α : Type) : Type := List ℤ × α

/-- `max_sim_i8`: each product of quantized vectors is scaled back. -/
def maxSimI8 (queryVecs docVecs : List (QuantizedTokenVec α)) : α :=
  maxSimBy (fun q d => dotI8 q.1 d.1 * q.2 * d.2) queryVecs docVecs

omit [IsStrictOrderedRing α] in
/-- The vectors may be replaced before the product is taken. -/
theorem maxSimBy_map {V W V' W' : Type} (product : V' → W' → α) (f : V → V') (g : W → W')
    (queryVecs : List V) (docVecs : List W) :
    maxSimBy product (queryVecs.map f) (docVecs.map g) =
      maxSimBy (fun q d => product (f q) (g d)) queryVecs docVecs := by
  cases docVecs with
  | nil => rfl
  | cons d ds => simp [maxSimBy, List.foldl_map, Function.comp_def]

/-- What a score is off by, when its products are. -/
theorem abs_maxSimBy_sub_le {V W : Type} {f g : V → W → α} {ε : V → α} {queryVecs : List V}
    {docVecs : List W} (hε : ∀ q, 0 ≤ ε q)
    (h : ∀ q ∈ queryVecs, ∀ d ∈ docVecs, |f q d - g q d| ≤ ε q) :
    |maxSimBy f queryVecs docVecs - maxSimBy g queryVecs docVecs| ≤ (queryVecs.map ε).sum := by
  cases docVecs with
  | nil =>
    rw [maxSimBy, maxSimBy, sub_self, abs_zero]
    exact List.sum_nonneg fun x hx => by
      obtain ⟨q, -, rfl⟩ := List.mem_map.mp hx
      exact hε q
  | cons d ds =>
    refine abs_sum_sub_sum_le fun q hq => ?_
    obtain ⟨hd, hds⟩ := List.forall_mem_cons.mp (h q hq)
    exact abs_foldl_max_sub_le hds hd

end Scores

/-! ## Quantization -/

section Quant

variable {α : Type} [Field α] [LinearOrder α] [IsStrictOrderedRing α] [FloorRing α]

omit [IsStrictOrderedRing α] in
/-- `scale = max(|v|) / 127`. Zeros have the scale 1. -/
def quantI8 (vec : List α) : QuantizedTokenVec α :=
  let absMax := maxAbs vec
  if absMax = 0 then (vec.map fun _ => 0, 1)
  else
    let scale := absMax / 127
    (vec.map fun v => clamp (-127) 127 (roundAway (v / scale)), scale)

omit [IsStrictOrderedRing α] in
theorem quantI8_of_pos {vec : List α} (h : 0 < maxAbs vec) :
    quantI8 vec = (vec.map (code 127 (maxAbs vec)), maxAbs vec / (127 : ℕ)) := by
  rw [quantI8, if_neg h.ne']
  rfl

omit [FloorRing α] in
theorem eq_zero_of_maxAbs {vec : List α} (h : maxAbs vec = 0) {x : α} (hx : x ∈ vec) : x = 0 :=
  abs_nonpos_iff.mp (h ▸ abs_le_maxAbs hx)

omit [IsStrictOrderedRing α] in
theorem zero_of_quantI8 {vec : List α} (h : maxAbs vec = 0) {c : ℤ} (hc : c ∈ (quantI8 vec).1) :
    c = 0 := by
  rw [quantI8, if_pos h] at hc
  obtain ⟨-, -, rfl⟩ := List.mem_map.mp hc
  rfl

/-- A code fits into 8 bits. -/
theorem abs_quantI8_le (vec : List α) : ∀ c ∈ (quantI8 vec).1, |c| ≤ 127 := by
  rcases (maxAbs_nonneg vec).eq_or_lt with h | h
  · rw [quantI8, if_pos h.symm]
    simp
  · rw [quantI8_of_pos h]
    exact List.forall_mem_map.mpr fun x hx => abs_code_le (by norm_num) h (abs_le_maxAbs hx)

omit [IsStrictOrderedRing α] in
@[simp] theorem length_quantI8 (vec : List α) : (quantI8 vec).1.length = vec.length := by
  rw [quantI8]
  dsimp only
  split <;> simp

/-- What the product of two quantized vectors is off by. -/
theorem abs_dotI8_sub_le {q d : List α} (hlength : q.length = d.length)
    (hless : q.length * 127 ^ 2 < 2 ^ 31) :
    |(dotI8 (quantI8 q).1 (quantI8 d).1 : α) * (quantI8 q).2 * (quantI8 d).2 - dot q d| ≤
      q.length * (maxAbs q * maxAbs d / 127) := by
  rw [dotI8_eq (abs_quantI8_le q) (abs_quantI8_le d) (by rwa [length_quantI8])]
  by_cases hzero : maxAbs q = 0 ∨ maxAbs d = 0
  · have hdot : dot q d = 0 := sum_zipWith_eq_zero
      (hzero.imp (fun h _ => eq_zero_of_maxAbs h) fun h _ => eq_zero_of_maxAbs h)
    have hcodes : (List.zipWith (· * ·) (quantI8 q).1 (quantI8 d).1).sum = 0 := sum_zipWith_eq_zero
      (hzero.imp (fun h _ => zero_of_quantI8 h) fun h _ => zero_of_quantI8 h)
    have hq := maxAbs_nonneg q
    have hd := maxAbs_nonneg d
    rw [hdot, hcodes]
    simp only [Int.cast_zero, zero_mul, sub_zero, abs_zero]
    positivity
  · obtain ⟨hq, hd⟩ := not_or.mp hzero
    replace hq := lt_of_le_of_ne (maxAbs_nonneg q) (Ne.symm hq)
    replace hd := lt_of_le_of_ne (maxAbs_nonneg d) (Ne.symm hd)
    rw [quantI8_of_pos hq, quantI8_of_pos hd]
    exact abs_dot_codes_sub_le (by norm_num) hq hd (fun _ => abs_le_maxAbs) (fun _ => abs_le_maxAbs)
      hlength

end Quant

/-! ## The store -/

/-- A row of `colbert_vecs_i8`. -/
structure Row (α : Type) where
  vecsI8 : Bytes
  scales : List α

/-- The stored row of each document, if it has one. -/
abbrev ColbertStore (α : Type) : Type := ℤ → Option (Row α)

/-- `x as u8` -/
def asU8 (c : ℤ) : UInt8 := (Int8.ofInt c).toUInt8

/-- `x as i8` -/
def asI8 (x : UInt8) : ℤ := x.toInt8.toInt

theorem asI8_asU8 {c : ℤ} (h : |c| ≤ 127) : asI8 (asU8 c) = c := by
  rw [abs_le] at h
  rw [asI8, asU8, Int8.toInt8_toUInt8, Int8.toInt_ofInt_of_le (by omega) (by omega)]

section Store

variable {α : Type} [Field α] [LinearOrder α] [IsStrictOrderedRing α] [FloorRing α]

/-- `add_colbert_i8`: the rows of the document are replaced; no vectors change nothing. -/
def addColbertI8 (store : ColbertStore α) (docId : ℤ) (vecs : List (List α)) : ColbertStore α :=
  if vecs = [] then store
  else
    let rows := vecs.map quantI8
    Function.update store docId
      (some ⟨(rows.map fun r => r.1.map asU8).flatten, rows.map Prod.snd⟩)

/-- The length of a row is the length of the blob by the number of scales. -/
def loadVecsI8 (store : ColbertStore α) (docId : ℤ) : Option (List (QuantizedTokenVec α)) := do
  let row ← store docId
  let n := row.scales.length
  if n = 0 ∨ row.vecsI8.length % n ≠ 0 then none
  else
    let dim := row.vecsI8.length / n
    some (row.scales.zipIdx.map fun s => ((block dim s.2 row.vecsI8).map asI8, s.1))

/-- The documents with a score, the highest first. -/
def colbertRerankI8 (store : ColbertStore α) (queryVecs : List (List α)) (candidates : List ℤ) :
    List (ℤ × α) :=
  let query := queryVecs.map quantI8
  let scores := candidates.filterMap fun docId => do
    let doc ← loadVecsI8 store docId
    some (docId, maxSimI8 query doc)
  scores.mergeSort fun a b => b.2 ≤ a.2

/-! ## What is stored -/

/-- What was given last for each document. -/
abbrev Docs (α : Type) : Type := ℤ → Option (List (List α))

/-- The vectors of a document are replaced; no vectors change nothing. -/
def Docs.add (docs : Docs α) (docId : ℤ) (vecs : List (List α)) : Docs α :=
  if vecs = [] then docs else Function.update docs docId (some vecs)

/-- The rows of the store are those of the documents, quantized. -/
def Stores (store : ColbertStore α) (docs : Docs α) : Prop :=
  ∀ docId, loadVecsI8 store docId = (docs docId).map (List.map quantI8)

omit [IsStrictOrderedRing α] in
/-- A stored row has as many bytes as the vector has numbers. -/
theorem length_rowBytes {dim : ℕ} {vecs : List (List α)} (hdim : ∀ v ∈ vecs, v.length = dim) :
    ∀ b ∈ vecs.map fun v => (quantI8 v).1.map asU8, b.length = dim := by
  refine List.forall_mem_map.mpr fun v hv => ?_
  rw [List.length_map, length_quantI8, hdim v hv]

theorem map_asI8_asU8 (v : List α) : ((quantI8 v).1.map asU8).map asI8 = (quantI8 v).1 := by
  rw [List.map_map]
  exact (List.map_congr_left fun c hc => asI8_asU8 (abs_quantI8_le v c hc)).trans (List.map_id _)

/-- **Rows of one length come back.** -/
theorem loadVecsI8_addColbertI8 {dim : ℕ} {vecs : List (List α)} (hvecs : vecs ≠ [])
    (hdim : ∀ v ∈ vecs, v.length = dim) (store : ColbertStore α) (docId : ℤ) :
    loadVecsI8 (addColbertI8 store docId vecs) docId = some (vecs.map quantI8) := by
  have hpos : 0 < vecs.length := List.length_pos_of_ne_nil hvecs
  have hrows := length_rowBytes hdim
  have hlength := length_flatten hrows
  rw [List.length_map] at hlength
  rw [loadVecsI8, addColbertI8, if_neg hvecs]
  simp only [Function.update_self, List.map_map, Function.comp_def, Option.bind_eq_bind,
    Option.bind_some, List.length_map, hlength, Nat.mul_mod_right, Nat.mul_div_cancel_left _ hpos]
  rw [if_neg (by omega)]
  refine congrArg some (List.ext_getElem? fun i => ?_)
  rw [List.getElem?_map, List.getElem?_zipIdx, List.getElem?_map, List.getElem?_map]
  cases hi : vecs[i]? with
  | none => rfl
  | some v =>
    have hblock := block_flatten hrows (i := i) (r := (quantI8 v).1.map asU8) (by simp [hi])
    simp only [Option.map_some, Nat.zero_add, hblock, map_asI8_asU8]

/-- An added document is stored, and the others stay. -/
theorem Stores.add {dim : ℕ} {store : ColbertStore α} {docs : Docs α} (h : Stores store docs)
    {vecs : List (List α)} (hdim : ∀ v ∈ vecs, v.length = dim) (docId : ℤ) :
    Stores (addColbertI8 store docId vecs) (docs.add docId vecs) := by
  by_cases hvecs : vecs = []
  · rwa [addColbertI8, if_pos hvecs, Docs.add, if_pos hvecs]
  · intro other
    by_cases hother : other = docId
    · rw [hother, loadVecsI8_addColbertI8 hvecs hdim, Docs.add, if_neg hvecs, Function.update_self]
      rfl
    · rw [Docs.add, if_neg hvecs, Function.update_of_ne hother, ← h other, loadVecsI8, loadVecsI8,
        addColbertI8, if_neg hvecs, Function.update_of_ne hother]

/-- The store after some calls. -/
def addAll (adds : List (ℤ × List (List α))) : ColbertStore α :=
  adds.foldl (fun store a => addColbertI8 store a.1 a.2) fun _ => none

/-- The documents after some calls. -/
def Docs.addAll (adds : List (ℤ × List (List α))) : Docs α :=
  adds.foldl (fun docs a => docs.add a.1 a.2) fun _ => none

/-- Every call has rows of one length. -/
theorem stores_addAll {dim : ℕ} {adds : List (ℤ × List (List α))}
    (hadds : ∀ a ∈ adds, ∀ v ∈ a.2, v.length = dim) : Stores (addAll adds) (Docs.addAll adds) := by
  induction adds using List.reverseRecOn with
  | nil => exact fun _ => rfl
  | append_singleton adds a ih =>
    rw [List.forall_mem_append] at hadds
    have hlast := ih hadds.1
    rw [addAll, List.foldl_concat, Docs.addAll, List.foldl_concat]
    exact hlast.add (hadds.2 a (List.mem_singleton_self a)) a.1

omit [Field α] [LinearOrder α] [IsStrictOrderedRing α] [FloorRing α] in
/-- What is stored under a document was added for it. -/
theorem Docs.mem_addAll {adds : List (ℤ × List (List α))} {docId : ℤ} {vecs : List (List α)}
    (h : vecs ∈ Docs.addAll adds docId) : (docId, vecs) ∈ adds := by
  induction adds using List.reverseRecOn with
  | nil => cases h
  | append_singleton adds a ih =>
    rw [Docs.addAll, List.foldl_concat, Docs.add] at h
    split at h
    · exact List.mem_append_left _ (ih h)
    · by_cases hdoc : docId = a.1
      · rw [hdoc, Function.update_self] at h
        obtain rfl := Option.some_inj.mp h
        exact List.mem_append_right _ (by simp [hdoc])
      · rw [Function.update_of_ne hdoc] at h
        exact List.mem_append_left _ (ih h)

/-! ## What scores are off by -/

/-- A step of the query's scale and of the document's, for each entry. -/
def scoreError (dim : ℕ) (queryVecs docVecs : List (List α)) : α :=
  (queryVecs.map fun q => dim * (maxAbs q * maxAbs docVecs.flatten / 127)).sum

/-- How far the quantized similarity is from the exact one. -/
theorem abs_maxSimI8_sub_le {dim : ℕ} (hless : dim * 127 ^ 2 < 2 ^ 31)
    {queryVecs docVecs : List (List α)} (hquery : ∀ q ∈ queryVecs, q.length = dim)
    (hdoc : ∀ d ∈ docVecs, d.length = dim) :
    |maxSimI8 (queryVecs.map quantI8) (docVecs.map quantI8) - maxSim queryVecs docVecs| ≤
      scoreError dim queryVecs docVecs := by
  rw [maxSimI8, maxSimBy_map, maxSim]
  have hgreatest := maxAbs_nonneg docVecs.flatten
  refine abs_maxSimBy_sub_le (fun q => ?_) fun q hq d hd => ?_
  · have hq := maxAbs_nonneg q
    positivity
  · have hd' : maxAbs d ≤ maxAbs docVecs.flatten :=
      maxAbs_le hgreatest fun x hx => abs_le_maxAbs (List.mem_flatten_of_mem hd hx)
    have hq' := maxAbs_nonneg q
    rw [dotF32_eq, ← hquery q hq]
    refine (abs_dotI8_sub_le ((hquery q hq).trans (hdoc d hd).symm)
      (by rwa [hquery q hq])).trans ?_
    gcongr

/-- A candidate of the reranking, if it has vectors. -/
def hitOf (docs : Docs α) (queryVecs : List (List α)) (docId : ℤ) : Option (ℤ × α) :=
  (docs docId).map fun vecs => (docId, maxSimI8 (queryVecs.map quantI8) (vecs.map quantI8))

omit [IsStrictOrderedRing α] in
/-- The hits are those of the documents, the best first. -/
theorem colbertRerankI8_of_stores {store : ColbertStore α} {docs : Docs α} (h : Stores store docs)
    (queryVecs : List (List α)) (candidates : List ℤ) :
    colbertRerankI8 store queryVecs candidates =
      (candidates.filterMap (hitOf docs queryVecs)).mergeSort fun a b => b.2 ≤ a.2 := by
  simp only [colbertRerankI8, h _]
  congr 2
  funext docId
  rw [hitOf]
  cases docs docId <;> rfl

omit [IsStrictOrderedRing α] in
/-- The documents of the hits are the candidates that are stored. -/
theorem map_fst_filterMap_hitOf (docs : Docs α) (queryVecs : List (List α)) (candidates : List ℤ) :
    (candidates.filterMap (hitOf docs queryVecs)).map Prod.fst =
      candidates.filter fun docId => (docs docId).isSome := by
  rw [List.map_filterMap, ← List.filterMap_eq_filter]
  congr 1
  funext docId
  rw [hitOf, Option.map_map, Option.guard]
  cases docs docId <;> rfl

/-- **What the store ranks by.** A document may be above another one only if its score is not lower
by more than what both scores are off by. -/
theorem colbertRerankI8_near {dim : ℕ} (hless : dim * 127 ^ 2 < 2 ^ 31)
    {adds : List (ℤ × List (List α))} (hadds : ∀ a ∈ adds, ∀ v ∈ a.2, v.length = dim)
    {queryVecs : List (List α)} (hquery : ∀ q ∈ queryVecs, q.length = dim) (candidates : List ℤ) :
    let docs := Docs.addAll adds
    let hits := colbertRerankI8 (addAll adds) queryVecs candidates
    (hits.map Prod.fst).Perm (candidates.filter fun docId => (docs docId).isSome) ∧
    (∀ hit ∈ hits, ∃ vecs ∈ docs hit.1,
      |hit.2 - maxSim queryVecs vecs| ≤ scoreError dim queryVecs vecs) ∧
    hits.Pairwise fun above below => ∀ vecs ∈ docs above.1, ∀ vecs' ∈ docs below.1,
      maxSim queryVecs vecs' ≤
        maxSim queryVecs vecs + scoreError dim queryVecs vecs + scoreError dim queryVecs vecs' := by
  intro docs hits
  have hstores : Stores (addAll adds) docs := stores_addAll hadds
  have hscores : hits = (candidates.filterMap (hitOf docs queryVecs)).mergeSort
      fun a b => b.2 ≤ a.2 := colbertRerankI8_of_stores hstores queryVecs candidates
  have hperm : hits.Perm (candidates.filterMap (hitOf docs queryVecs)) :=
    hscores ▸ List.mergeSort_perm _ _
  have hsorted : hits.Pairwise fun above below => below.2 ≤ above.2 := by
    rw [hscores]
    exact List.pairwise_mergeSort' (Order.Preimage Prod.snd (· ≥ ·)) _
  have hnear (hit : ℤ × α) (hhit : hit ∈ hits) : ∃ vecs ∈ docs hit.1,
      |hit.2 - maxSim queryVecs vecs| ≤ scoreError dim queryVecs vecs := by
    obtain ⟨docId, -, hdoc⟩ := List.mem_filterMap.mp (hperm.mem_iff.mp hhit)
    obtain ⟨vecs, hvecs, rfl⟩ := Option.map_eq_some_iff.mp hdoc
    exact ⟨vecs, hvecs, abs_maxSimI8_sub_le hless hquery
      (hadds (docId, vecs) (Docs.mem_addAll hvecs))⟩
  refine ⟨?_, hnear, ?_⟩
  · exact (hperm.map Prod.fst).trans
      (.of_eq (map_fst_filterMap_hitOf docs queryVecs candidates))
  · refine hsorted.imp_of_mem fun {above below} habove hbelow hle vecs hvecs vecs' hvecs' => ?_
    obtain ⟨w, hw, hnear₁⟩ := hnear above habove
    obtain ⟨w', hw', hnear₂⟩ := hnear below hbelow
    obtain rfl := Option.some_inj.mp (hw.symm.trans hvecs)
    obtain rfl := Option.some_inj.mp (hw'.symm.trans hvecs')
    rw [abs_le] at hnear₁ hnear₂
    linarith

end Store

/-- Two documents of one vector each. -/
def twoDocs : List (ℤ × List (List ℚ)) := [(1, [[1, 1 / 2]]), (2, [[1 / 2, 1]])]

/-- Three candidates, of which two are stored. -/
theorem colbertRerankI8_near_twoDocs :
    ((colbertRerankI8 (addAll twoDocs) [[1, 0]] [2, 1, 3]).map Prod.fst).Perm [2, 1] ∧
    ∀ hit ∈ colbertRerankI8 (addAll twoDocs) [[1, 0]] [2, 1, 3], ∃ vecs ∈ Docs.addAll twoDocs hit.1,
      |hit.2 - maxSim [[1, 0]] vecs| ≤ scoreError 2 [[1, 0]] vecs := by
  have hadds : ∀ a ∈ twoDocs, ∀ v ∈ a.2, v.length = 2 := by simp [twoDocs]
  obtain ⟨hids, hnear, -⟩ := @colbertRerankI8_near ℚ _ _ _ _ 2 (by norm_num) twoDocs hadds
    [[1, 0]] (by simp) [2, 1, 3]
  have hstored : ([2, 1, 3].filter fun docId => (Docs.addAll twoDocs docId).isSome) = [2, 1] := by
    decide
  exact ⟨hstored ▸ hids, hnear⟩

example : loadVecsI8 (addAll twoDocs) 2 = some [([64, 127], 1 / 127)] := by decide +kernel

end SynapseMemory.Colbert
