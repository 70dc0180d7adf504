import SynapseMemory.Search

/-!
# Search by vectors with a filter

`search_vec_filtered` asks the vector index for more than the limit, keeps the documents whose
`meta` satisfies a predicate, and returns the first of them. How many more is guessed from the shape
of the predicate: at most thirty-two times as many.

With an exact index the hits are matching documents, nearest first, and none that is nearer is
omitted. But there may be more matching documents than are among the nearest: a limit of hits is
returned just if that many are (`complete_iff`).
-/

namespace SynapseMemory

open Proto

namespace FilteredSearch

/-! ## Predicates -/

/-- `MetadataPredicate` -/
inductive MetadataPredicate where
  | eq (key : String) (value : Json)
  | ne (key : String) (value : Json)
  | lt (key : String) (value : F64)
  | gt (key : String) (value : F64)
  | lte (key : String) (value : F64)
  | gte (key : String) (value : F64)
  | in_ (key : String) (values : List Json)
  | and (preds : List MetadataPredicate)
  | or (preds : List MetadataPredicate)
  | not (pred : MetadataPredicate)

/-- Arithmetic and comparisons of floats. Selectivities have a type of their own. -/
class FilterFloats where
  eq : F64 → F64 → Bool
  lt : F64 → F64 → Bool
  le : F64 → F64 → Bool
  /-- `as_f64` of an integer -/
  ofInt : ℤ → F64
  S : Type
  /-- A literal, in hundredths. -/
  centi : ℕ → S
  ofNat : ℕ → S
  mul : S → S → S
  sub : S → S → S
  min : S → S → S
  max : S → S → S
  /-- `(1.0 / x).ceil() as usize` -/
  ceilInv : S → ℕ

/-- Exact selectivities. Numbers in a `meta` are compared by their bits. -/
@[reducible] def FilterFloats.exact : FilterFloats where
  eq a b := a == b
  lt a b := a.toNat < b.toNat
  le a b := a.toNat ≤ b.toNat
  ofInt := BitVec.ofInt 64
  S := ℚ
  centi n := n / 100
  ofNat n := n
  mul a b := a * b
  sub a b := a - b
  min a b := a ⊓ b
  max a b := a ⊔ b
  ceilInv x := ⌈1 / x⌉₊

section Predicate

variable [F : FilterFloats]

mutual

/-- `Value::eq`: the fields of an object have no order. -/
def jsonEq : Json → Json → Bool
  | .null, .null => true
  | .bool a, .bool b => a == b
  | .int a, .int b => a == b
  | .real a, .real b => F.eq a b
  | .str a, .str b => a == b
  | .arr a, .arr b => itemsEq a b
  | .obj a, .obj b => a.length == b.length && fieldsEq a b
  | _, _ => false

/-- Two arrays are equal. -/
def itemsEq : List Json → List Json → Bool
  | [], [] => true
  | v :: a, w :: b => jsonEq v w && itemsEq a b
  | _, _ => false

/-- Each field of the first object has its equal in the second. -/
def fieldsEq : List (String × Json) → List (String × Json) → Bool
  | [], _ => true
  | f :: rest, b => fieldEq f b && fieldsEq rest b

/-- The second object has an equal field. -/
def fieldEq : String × Json → List (String × Json) → Bool
  | (key, v), b => (b.lookup key).any fun w => jsonEq v w

end

/-- `Value::as_f64` -/
def asF64 : Json → Option F64
  | .int n => some (F.ofInt n)
  | .real x => some x
  | _ => none

/-- `matches_field`; the compound predicates do not get there. -/
def matchesField (obj : Json) : MetadataPredicate → Bool
  | .eq key value => (obj.get key).any fun f => jsonEq f value
  | .ne key value => (obj.get key).any fun f => !jsonEq f value
  | .lt key value => ((obj.get key).bind asF64).any fun n => F.lt n value
  | .gt key value => ((obj.get key).bind asF64).any fun n => F.lt value n
  | .lte key value => ((obj.get key).bind asF64).any fun n => F.le n value
  | .gte key value => ((obj.get key).bind asF64).any fun n => F.le value n
  | .in_ key values => (obj.get key).any fun f => values.any fun v => jsonEq v f
  | _ => false

mutual

/-- `matches` -/
def matches_ (meta_ : Option Json) : MetadataPredicate → Bool
  | .and preds => matchesAll meta_ preds
  | .or preds => matchesAny meta_ preds
  | .not pred => !matches_ meta_ pred
  | pred => meta_.any fun obj => matchesField obj pred

/-- All predicates of `And` match. -/
def matchesAll (meta_ : Option Json) : List MetadataPredicate → Bool
  | [] => true
  | pred :: preds => matches_ meta_ pred && matchesAll meta_ preds

/-- A predicate of `Or` matches. -/
def matchesAny (meta_ : Option Json) : List MetadataPredicate → Bool
  | [] => false
  | pred :: preds => matches_ meta_ pred || matchesAny meta_ preds

end

mutual

/-- `estimated_selectivity` -/
def estimatedSelectivity : MetadataPredicate → F.S
  | .eq _ _ => F.centi 50
  | .ne _ _ => F.centi 90
  | .lt _ _ => F.centi 30
  | .gt _ _ => F.centi 30
  | .lte _ _ => F.centi 35
  | .gte _ _ => F.centi 35
  | .in_ _ values => F.min (F.mul (F.ofNat values.length) (F.centi 20)) (F.centi 90)
  | .and preds => F.max (product (F.centi 100) preds) (F.centi 1)
  | .or preds => F.min (F.sub (F.centi 100) (missProduct (F.centi 100) preds)) (F.centi 99)
  | .not pred => F.max (F.sub (F.centi 100) (estimatedSelectivity pred)) (F.centi 1)

/-- The product of the selectivities of `And`. -/
def product : F.S → List MetadataPredicate → F.S
  | acc, [] => acc
  | acc, pred :: preds => product (F.mul acc (estimatedSelectivity pred)) preds

/-- The share that none of them lets pass. -/
def missProduct : F.S → List MetadataPredicate → F.S
  | acc, [] => acc
  | acc, pred :: preds =>
    missProduct (F.mul acc (F.sub (F.centi 100) (estimatedSelectivity pred))) preds

end

end Predicate

/-- `SearchOptions` -/
structure SearchOptions where
  filter : Option MetadataPredicate
  efMultiplier : Option ℕ

section Multiplier

variable [F : FilterFloats]

/-- The factor by which a filtered search asks for more hits. -/
def efMult (pred : MetadataPredicate) (opts : SearchOptions) : ℕ :=
  let selectivity := F.max (estimatedSelectivity pred) (F.centi 1)
  opts.efMultiplier.getD (max 2 (min 32 (F.ceilInv selectivity)))

/-- The number of candidates. -/
def oversampleK (pred : MetadataPredicate) (opts : SearchOptions) (limit : ℕ) : ℕ :=
  max (limit * efMult pred opts % 2 ^ 64) ((limit + 1) % 2 ^ 64)

end Multiplier

/-- The `meta` of some rows, by their ids. -/
def fetchMetaByIds (docs : List Doc) (ids : List ℤ) : List (ℤ × Option Json) :=
  (docs.filter fun d => d.id ∈ ids).map fun d => (d.id, d.meta_)

end FilteredSearch

namespace Store

open FilteredSearch Search

variable [Blake3] [E : SearchEngine]

/-- `search_vec_oversampled`. An exact index has no use for a larger `ef`. -/
def searchVecOversampled (s : Store) (emb : List F32) (k : ℕ) : Except String (List Hit) :=
  if emb.length ≠ embedDim then
    .error ("dim mismatch: expected " ++ toString embedDim ++ ", got " ++ toString emb.length)
  else do
    let found ← E.nearest s.vecs emb k
    .ok (hydrate s.docs.rows found)

variable [FilterFloats]

omit E in
/-- `filter_hits_by_meta` -/
def filterHitsByMeta (s : Store) (candidates : List Hit) (pred : MetadataPredicate)
    (limit : ℕ) : List Hit :=
  let metaMap := fetchMetaByIds s.docs.rows (candidates.map Hit.id)
  (candidates.filter fun h => matches_ ((metaMap.lookup h.id).bind id) pred).take limit

/-- `search_vec_filtered` -/
def searchVecFiltered (s : Store) (emb : List F32) (limit : ℕ) (opts : SearchOptions) :
    Except String (List Hit) :=
  match opts.filter with
  | none => s.searchVec emb limit
  | some pred => do
    let candidates ← s.searchVecOversampled emb (oversampleK pred opts limit)
    .ok (s.filterHitsByMeta candidates pred limit)

end Store

namespace FilteredSearch

open Search

/-! ## An exact index -/

/-- The index returns the first of the vectors in the order of their distances. -/
class ExactEngine extends SearchEngine where
  Distance : Type
  order : LinearOrder Distance
  distance : List F32 → List F32 → Distance
  /-- `1 / (1 + distance)` -/
  scoreOf : Distance → F64
  exact : ∀ vecs emb k, ∃ ranked : List (ℤ × List F32), ranked.Perm vecs ∧
    ranked.Pairwise (fun v w => distance emb v.2 ≤ distance emb w.2) ∧
    nearest vecs emb k = .ok ((ranked.take k).map fun v => (v.1, scoreOf (distance emb v.2)))

attribute [reducible, instance] ExactEngine.order

section Complete

variable [Blake3] [FilterFloats] [X : ExactEngine]

omit X in
/-- The document of an id matches. -/
def idMatches (s : Store) (pred : MetadataPredicate) (id : ℤ) : Bool :=
  (s.docs.rows.find? (·.id = id)).any fun d => matches_ d.meta_ pred

omit X in
/-- The vectors of the matching documents. -/
def matching (s : Store) (pred : MetadataPredicate) : List (ℤ × List F32) :=
  s.vecs.filter fun v => idMatches s pred v.1

/-- The hit is the document of the vector, with the score of its distance. -/
def IsHitOf (s : Store) (emb : List F32) (v : ℤ × List F32) (h : Hit) : Prop :=
  ∃ d ∈ s.docs.rows, d.id = v.1 ∧ h = hitOf d (X.scoreOf (X.distance emb v.2))

/-- The hits are of vectors of matching documents, nearest first; no matching document that is
omitted is nearer, and if there are less than the limit, then so few match. -/
def Complete (s : Store) (emb : List F32) (pred : MetadataPredicate) (limit : ℕ)
    (hits : List Hit) : Prop :=
  ∃ rows : List (ℤ × List F32), List.Forall₂ (IsHitOf s emb) rows hits ∧
    rows.Subperm (matching s pred) ∧
    rows.Pairwise (fun v w => X.distance emb v.2 ≤ X.distance emb w.2) ∧
    (∀ v ∈ matching s pred, v ∉ rows → ∀ w ∈ rows, X.distance emb w.2 ≤ X.distance emb v.2) ∧
    (hits.length < limit → (matching s pred).length < limit)

omit [FilterFloats] X in
theorem find?_row {s : Store} {d : Doc} (hd : d ∈ s.docs.rows) {id : ℤ} (hid : d.id = id) :
    s.docs.rows.find? (·.id = id) = some d := by
  refine (Table.find?_eq_some_of_unique fun a ha b hb haid hbid => ?_).mpr ⟨hd, decide_eq_true hid⟩
  exact s.docs.eq_of_id ha hb ((of_decide_eq_true haid).trans (of_decide_eq_true hbid).symm)

omit [FilterFloats] X in
/-- What is fetched for a row is its `meta`. -/
theorem lookup_fetchMetaByIds {s : Store} {d : Doc} {ids : List ℤ} (hd : d ∈ s.docs.rows)
    (hid : d.id ∈ ids) : (fetchMetaByIds s.docs.rows ids).lookup d.id = some d.meta_ := by
  have hmem : d ∈ s.docs.rows.filter fun x => x.id ∈ ids :=
    List.mem_filter.mpr ⟨hd, decide_eq_true hid⟩
  obtain ⟨before, after, hsplit⟩ := List.append_of_mem hmem
  have hsorted := s.docs.sorted.sublist (List.filter_sublist (p := fun x => decide (x.id ∈ ids)))
  rw [hsplit] at hsorted
  refine List.lookup_eq_some_iff.mpr ⟨before.map fun x => (x.id, x.meta_),
    after.map fun x => (x.id, x.meta_), ?_, fun p hp => ?_⟩
  · rw [fetchMetaByIds, hsplit, List.map_append, List.map_cons]
  · obtain ⟨x, hx, rfl⟩ := List.mem_map.mp hp
    have hlt : x.id < d.id := (List.pairwise_append.mp hsorted).2.2 x hx d List.mem_cons_self
    simpa using hlt.ne'

omit X in
theorem idMatches_row {s : Store} {d : Doc} (hd : d ∈ s.docs.rows) (pred : MetadataPredicate) :
    idMatches s pred d.id = matches_ d.meta_ pred := by
  rw [idMatches, find?_row hd rfl, Option.any_some]

omit [FilterFloats] in
/-- The hit of a vector, if it is the vector of a document. -/
def hitAt (s : Store) (emb : List F32) (v : ℤ × List F32) : Option Hit :=
  (s.docs.rows.find? (·.id = v.1)).map (hitOf · (X.scoreOf (X.distance emb v.2)))

/-- The candidates that pass are those of the vectors of matching documents. -/
theorem forall₂_filter (s : Store) (emb : List F32) (pred : MetadataPredicate) {ids : List ℤ}
    {vs : List (ℤ × List F32)} (hids : ∀ h ∈ vs.filterMap (hitAt s emb), h.id ∈ ids) :
    List.Forall₂ (IsHitOf s emb) (vs.filter fun v => idMatches s pred v.1)
      ((vs.filterMap (hitAt s emb)).filter fun h =>
        matches_ (((fetchMetaByIds s.docs.rows ids).lookup h.id).bind id) pred) := by
  induction vs with
  | nil => exact .nil
  | cons v vs ih =>
    cases hfind : s.docs.rows.find? (·.id = v.1) with
    | none =>
      have hnone : hitAt s emb v = none := by rw [hitAt, hfind, Option.map_none]
      have hmatch : ¬idMatches s pred v.1 = true := by simp [idMatches, hfind]
      rw [List.filterMap_cons_none hnone] at hids ⊢
      rw [List.filter_cons, if_neg hmatch]
      exact ih hids
    | some d =>
      have hd := List.mem_of_find?_eq_some hfind
      have hid : d.id = v.1 := by simpa using List.find?_some hfind
      have hsome : hitAt s emb v = some (hitOf d (X.scoreOf (X.distance emb v.2))) := by
        rw [hitAt, hfind, Option.map_some]
      rw [List.filterMap_cons_some hsome] at hids ⊢
      obtain ⟨hhead, htail⟩ := List.forall_mem_cons.mp hids
      have hlookup := lookup_fetchMetaByIds hd hhead
      have hmatch : idMatches s pred v.1 = matches_ d.meta_ pred := hid ▸ idMatches_row hd pred
      rw [List.filter_cons, List.filter_cons, hmatch]
      simp only [hitOf, hlookup, Option.bind_some, id]
      split
      · exact .cons ⟨d, hd, hid, rfl⟩ (ih htail)
      · exact ih htail

/-- What is left of the nearest vectors. -/
theorem complete_filterHitsByMeta (s : Store) (emb : List F32) (pred : MetadataPredicate)
    (limit k : ℕ) {ranked : List (ℤ × List F32)} (hperm : ranked.Perm s.vecs)
    (hsorted : ranked.Pairwise fun v w => X.distance emb v.2 ≤ X.distance emb w.2) :
    Complete s emb pred limit
        (s.filterHitsByMeta ((ranked.take k).filterMap (hitAt s emb)) pred limit) ↔
      (matching s pred).length < limit ∨
        limit ≤ (ranked.take k).countP fun v => idMatches s pred v.1 := by
  have hhits := forall₂_filter s emb pred
    fun h (hh : h ∈ (ranked.take k).filterMap (hitAt s emb)) => List.mem_map_of_mem (f := Hit.id) hh
  have hlength : (s.filterHitsByMeta ((ranked.take k).filterMap (hitAt s emb)) pred limit).length =
      min limit ((ranked.take k).countP fun v => idMatches s pred v.1) := by
    rw [Store.filterHitsByMeta, List.length_take, ← hhits.length_eq, List.countP_eq_length_filter]
  constructor
  · rintro ⟨rows, -, -, -, -, hfew⟩
    rw [hlength] at hfew
    omega
  · intro hmany
    -- the matching ones in the order of their distances, and the first of them
    have hall : (ranked.filter fun v => idMatches s pred v.1).Perm (matching s pred) :=
      hperm.filter _
    have hprefix : ((ranked.take k).filter fun v => idMatches s pred v.1).take limit <+:
        ranked.filter fun v => idMatches s pred v.1 :=
      (List.take_prefix limit _).trans ((List.take_prefix k ranked).filter _)
    have hnearer := hsorted.filter fun v => idMatches s pred v.1
    refine ⟨((ranked.take k).filter fun v => idMatches s pred v.1).take limit,
      List.forall₂_take limit hhits, hprefix.sublist.subperm.trans hall.subperm,
      hnearer.sublist hprefix.sublist, ?_, ?_⟩
    · intro v hv hout w hw
      obtain ⟨rest, hrest⟩ := hprefix
      rw [← hrest] at hall hnearer
      have hv' := (List.mem_append.mp (hall.mem_iff.mpr hv)).resolve_left hout
      exact (List.pairwise_append.mp hnearer).2.2 w hw v hv'
    · rw [hlength]
      omega

/-- **A limit of hits is returned just if that many are among the nearest**, where as many match. -/
theorem complete_iff (s : Store) (emb : List F32) (pred : MetadataPredicate) (limit : ℕ)
    (efMultiplier : Option ℕ) :
    (∀ hits, s.searchVecFiltered emb limit ⟨some pred, efMultiplier⟩ = .ok hits →
        Complete s emb pred limit hits) ↔
      (emb.length = Store.embedDim → (matching s pred).length < limit ∨
        ∀ found, X.nearest s.vecs emb (oversampleK pred ⟨some pred, efMultiplier⟩ limit) =
            .ok found → limit ≤ found.countP fun v => idMatches s pred v.1) := by
  obtain ⟨ranked, hperm, hsorted, hnearest⟩ :=
    X.exact s.vecs emb (oversampleK pred ⟨some pred, efMultiplier⟩ limit)
  by_cases hdim : emb.length = Store.embedDim
  · have hsearch : s.searchVecFiltered emb limit ⟨some pred, efMultiplier⟩ =
        .ok (s.filterHitsByMeta ((ranked.take
          (oversampleK pred ⟨some pred, efMultiplier⟩ limit)).filterMap (hitAt s emb)) pred
            limit) := by
      simp only [Store.searchVecFiltered, Store.searchVecOversampled, hdim, hnearest, hydrate,
        List.filterMap_map, not_true_eq_false, ne_eq, if_false, bind, Except.bind]
      rfl
    have hcomplete := complete_filterHitsByMeta s emb pred limit
      (oversampleK pred ⟨some pred, efMultiplier⟩ limit) hperm hsorted
    rw [hsearch, hnearest, forall_prop_of_true hdim]
    simp only [Except.ok.injEq, forall_eq', List.countP_map]
    exact hcomplete
  · refine iff_of_true (fun hits hok => ?_) fun h => absurd h hdim
    simp only [Store.searchVecFiltered, Store.searchVecOversampled, ne_eq, hdim, not_false_eq_true,
      if_true, bind, Except.bind] at hok
    cases hok

end Complete

/-! ## A match behind two others -/

section Far

/-- Vectors by their first coordinate, as from the origin if that is all they have. -/
@[reducible] def ExactEngine.byFirst : ExactEngine where
  toSearchEngine := { SearchEngine.scan with
    nearest := fun vecs _ k =>
      .ok (((vecs.mergeSort fun v w => (v.2.headD 0).toNat ≤ (w.2.headD 0).toNat).take k).map
        fun v => (v.1, BitVec.ofNat 64 (v.2.headD 0).toNat)) }
  Distance := ℕ
  order := inferInstance
  distance _ v := (v.headD 0).toNat
  scoreOf := BitVec.ofNat 64
  exact vecs _ k := by
    refine ⟨_, List.mergeSort_perm _ _,
      (List.pairwise_mergeSort ?_ ?_ _).imp of_decide_eq_true, rfl⟩
    · intro u v w huv hvw
      exact decide_eq_true ((of_decide_eq_true huv).trans (of_decide_eq_true hvw))
    · intro v w
      simpa using Nat.le_total _ _

/-- A document with its number for a text. -/
def numbered (id : ℤ) (meta_ : Option Json) : Doc := ⟨id, none, none, toString id, meta_, 0⟩

/-- A vector of the right length, whose first number has the bits of `n`. -/
def unit (n : ℕ) : List F32 := BitVec.ofNat 32 n :: List.replicate 383 0

theorem length_unit (n : ℕ) : (unit n).length = Store.embedDim := by
  rw [unit, List.length_cons, List.length_replicate, Store.embedDim]

/-- Three documents. Only the last one has the tag. -/
def taggedDocs : Table (@docSchema Blake3.identity) where
  rows := [numbered 1 none, numbered 2 none, numbered 3 (some (.obj [("tag", .str "a")]))]
  seq := 3
  seq_nonneg := by decide
  sorted := by decide
  id_pos := by decide
  le_seq := by decide
  key_nodup := by decide
  alt_nodup := by decide

/-- The last one of three is tagged. -/
def tagged : @Store Blake3.identity :=
  @Store.mk Blake3.identity taggedDocs [(1, unit 1), (2, unit 2), (3, unit 3)] [] (by decide)
    (by simp [taggedDocs])

/-- The predicate that only the last of the three matches. -/
@[reducible] def withTag : MetadataPredicate := .eq "tag" (.str "a")

/-- The two nearest documents do not have the tag. -/
theorem nearest_tagged :
    ExactEngine.byFirst.nearest (@Store.vecs Blake3.identity tagged) (unit 0) 2 =
      .ok [(1, 1), (2, 2)] := by
  have hsorted : ([(1, unit 1), (2, unit 2), (3, unit 3)] : List (ℤ × List F32)).mergeSort
      (fun v w => (v.2.headD 0).toNat ≤ (w.2.headD 0).toNat) =
        [(1, unit 1), (2, unit 2), (3, unit 3)] := by
    refine List.mergeSort_of_pairwise ?_
    simp only [List.pairwise_cons, List.forall_mem_cons, List.not_mem_nil, false_implies,
      implies_true, List.Pairwise.nil, and_true, decide_eq_true_eq]
    decide
  exact congrArg (fun vs : List (ℤ × List F32) => Except.ok ((vs.take 2).map fun v =>
    (v.1, BitVec.ofNat 64 (v.2.headD 0).toNat))) hsorted

/-- One hit is asked for, and two candidates are looked at. -/
theorem tagged_missed :
    ¬∀ hits, @Store.searchVecFiltered Blake3.identity ExactEngine.byFirst.toSearchEngine
        FilterFloats.exact tagged (unit 0) 1 ⟨some withTag, none⟩ = .ok hits →
      @Complete Blake3.identity FilterFloats.exact ExactEngine.byFirst tagged (unit 0) withTag 1
        hits := by
  intro h
  have hk : @oversampleK FilterFloats.exact withTag ⟨some withTag, none⟩ 1 = 2 := by
    decide +kernel
  have hdim := length_unit 0
  have hnone : @Store.searchVecFiltered Blake3.identity ExactEngine.byFirst.toSearchEngine
      FilterFloats.exact tagged (unit 0) 1 ⟨some withTag, none⟩ = .ok [] := by
    have hfilter : (@Store.filterHitsByMeta Blake3.identity FilterFloats.exact tagged
        (hydrate taggedDocs.rows [(1, 1), (2, 2)]) withTag 1).length = 0 := by
      decide +kernel
    simp only [Store.searchVecFiltered, Store.searchVecOversampled, hdim, hk, nearest_tagged,
      ne_eq, not_true_eq_false, if_false, bind, Except.bind]
    exact congrArg Except.ok (List.eq_nil_of_length_eq_zero hfilter)
  obtain ⟨rows, -, -, -, -, hfew⟩ := h [] hnone
  have hmany : (@matching Blake3.identity FilterFloats.exact tagged withTag).length = 1 := by
    decide +kernel
  have hlt := hfew Nat.zero_lt_one
  omega

end Far

end FilteredSearch

end SynapseMemory
