import SynapseMemory.ContextState
import SynapseMemory.RankFusion

/-!
# The fast hybrid search

The model of `fast_search_from_state` with the state of the daemon that it reads: the connection,
and the vector index in memory, which is there once the warm-up has published it. Distances and
scores are exact.

A leg that cannot be searched is `None`. For a hybrid search that is an empty list, and the search
goes to the store only if both lists are empty. The full-text index refuses the connection for
reading, so a query with a word is an error. A query without one has no lexical hits, and is
answered from the vector index alone: a row of `docs_vec` that is not in it is not in the answer,
unless there are enough others that are as near (`fastSearch_both_legs`). A row is missing for good
if it was stored while the warm-up was reading.
-/

namespace SynapseMemory.FastHybrid

open Proto RankFusion ContextState

/-! ## Nearest rows -/

/-- A vector with the id of its document. -/
abbrev VecRow : Type := ℤ × List F32

/-- The nearest rows with their distances: as many as asked for, in their order, and no other row is
nearer. -/
def IsNearest (distance : List F32 → ℚ) (rows : List VecRow) (k : ℕ) (pairs : List (ℤ × ℚ)) :
    Prop :=
  ∃ kept rest : List VecRow, (kept ++ rest).Perm rows ∧ kept.length = min k rows.length ∧
    pairs = kept.map (fun row => (row.1, distance row.2)) ∧
    (pairs.Pairwise fun a b => a.2 ≤ b.2) ∧
    ∀ a ∈ kept, ∀ b ∈ rest, distance a.2 ≤ distance b.2

section Nearest

variable {distance : List F32 → ℚ} {rows rows' : List VecRow} {k : ℕ} {pairs : List (ℤ × ℚ)}

theorem IsNearest.mem (h : IsNearest distance rows k pairs) :
    ∀ p ∈ pairs, p.1 ∈ rows.map Prod.fst := by
  obtain ⟨kept, rest, hkept, -, rfl, -, -⟩ := h
  intro p hp
  obtain ⟨row, hrow, rfl⟩ := List.mem_map.mp hp
  exact List.mem_map_of_mem (hkept.mem_iff.mp (List.mem_append_left _ hrow))

theorem IsNearest.nodup (h : IsNearest distance rows k pairs) (hnodup : (rows.map Prod.fst).Nodup) :
    (pairs.map Prod.fst).Nodup := by
  obtain ⟨kept, rest, hkept, -, rfl, -, -⟩ := h
  rw [List.map_map]
  refine ((hkept.map Prod.fst).nodup_iff.mpr hnodup).sublist ?_
  exact (List.sublist_append_left kept rest).map Prod.fst

/-- A sort by the distance, cut off. -/
def nearestRows (distance : List F32 → ℚ) (rows : List VecRow) (k : ℕ) : List VecRow :=
  (rows.mergeSort fun a b => distance a.2 ≤ distance b.2).take k

/-- Sorting and cutting gives what is nearest. -/
theorem isNearest_nearestRows (distance : List F32 → ℚ) (rows : List VecRow) (k : ℕ) :
    IsNearest distance rows k
      ((nearestRows distance rows k).map fun row => (row.1, distance row.2)) := by
  have hsorted : (rows.mergeSort fun a b => distance a.2 ≤ distance b.2).Pairwise fun a b =>
      decide (distance a.2 ≤ distance b.2) = true :=
    List.pairwise_mergeSort
      (fun _ _ _ hab hbc => decide_eq_true ((of_decide_eq_true hab).trans (of_decide_eq_true hbc)))
      (fun a b => by simpa using le_total (distance a.2) (distance b.2)) rows
  rw [← List.take_append_drop k (rows.mergeSort _)] at hsorted
  obtain ⟨hkept, -, hcross⟩ := List.pairwise_append.mp hsorted
  refine ⟨_, (rows.mergeSort fun a b => distance a.2 ≤ distance b.2).drop k, ?_, ?_, rfl, ?_,
    fun a ha b hb => of_decide_eq_true (hcross a ha b hb)⟩
  · rw [nearestRows, List.take_append_drop]
    exact List.mergeSort_perm _ _
  · rw [nearestRows, List.length_take, List.length_mergeSort]
  · exact List.pairwise_map.mpr (hkept.imp of_decide_eq_true)

/-! ### The first rows -/

/-- A list that is sorted by distance, and others that are no nearer than any of it. -/
structure Ahead (distance : List F32 → ℚ) (kept others : List VecRow) : Prop where
  sorted : kept.Pairwise fun a b => distance a.2 ≤ distance b.2
  near : ∀ a ∈ kept, ∀ b ∈ others, distance a.2 ≤ distance b.2

variable {kept others more : List VecRow} {n : ℕ}

theorem Ahead.filter (h : Ahead distance kept others) (p : VecRow → Bool) :
    Ahead distance (kept.filter p) (others.filter p) where
  sorted := h.sorted.filter p
  near a ha b hb := h.near a (List.mem_of_mem_filter ha) b (List.mem_of_mem_filter hb)

theorem Ahead.take (h : Ahead distance kept others) (n : ℕ) :
    Ahead distance (kept.take n) (kept.drop n ++ others) := by
  have hsorted := h.sorted
  rw [← List.take_append_drop n kept] at hsorted
  obtain ⟨htake, -, hcross⟩ := List.pairwise_append.mp hsorted
  refine ⟨htake, fun a ha b hb => ?_⟩
  rcases List.mem_append.mp hb with hb | hb
  · exact hcross a ha b hb
  · exact h.near a (List.mem_of_mem_take ha) b hb

/-- **The first rows are within a distance** if there are as many that are. -/
theorem Ahead.le_of_count (h : Ahead distance kept others) {d : ℚ}
    (hcount : n ≤ (kept ++ others).countP fun a => distance a.2 ≤ d) :
    ∀ a ∈ kept.take n, distance a.2 ≤ d := by
  induction kept generalizing n with
  | nil =>
    rw [List.take_nil]
    nofun
  | cons x kept ih =>
    cases n with
    | zero =>
      rw [List.take_zero]
      nofun
    | succ n =>
      obtain ⟨hx, hsorted⟩ := List.pairwise_cons.mp h.sorted
      have hnear := h.near x List.mem_cons_self
      by_cases hd : distance x.2 ≤ d
      · have hpos : decide (distance x.2 ≤ d) = true := decide_eq_true hd
        rw [List.cons_append, List.countP_cons, if_pos hpos] at hcount
        have htail := ih ⟨hsorted, fun a ha => h.near a (List.mem_cons_of_mem x ha)⟩
          (Nat.le_of_succ_le_succ hcount)
        exact List.forall_mem_cons.mpr ⟨hd, htail⟩
      · -- the others are no nearer than the first
        have hfar : ∀ a ∈ x :: kept ++ others, ¬decide (distance a.2 ≤ d) = true := by
          intro a ha hle
          have hle := of_decide_eq_true hle
          rcases List.mem_append.mp ha with ha | ha
          · rcases List.mem_cons.mp ha with rfl | ha
            · exact hd hle
            · exact hd ((hx a ha).trans hle)
          · exact hd ((hnear a ha).trans hle)
        rw [List.countP_eq_zero.mpr hfar] at hcount
        exact absurd hcount (Nat.not_succ_le_zero n)

/-- Rows with a nearest list after them. -/
theorem Ahead.append (h : Ahead distance kept others) (k : ℕ) (hk : kept.length ≤ k)
    (hperm : (kept ++ others).Perm rows) :
    ∃ tail ⊆ others, IsNearest distance rows k
      ((kept ++ tail).map fun row => (row.1, distance row.2)) := by
  obtain ⟨tail, left, htail, hlen, hpairs, hsorted, hnear⟩ :=
    isNearest_nearestRows distance others (k - kept.length)
  rw [hpairs, List.pairwise_map] at hsorted
  have hcut : (kept ++ tail ++ left).Perm rows := by
    rw [List.append_assoc]
    exact (htail.append_left kept).trans hperm
  refine ⟨tail, fun a ha => htail.subset (List.mem_append_left _ ha), kept ++ tail, left, hcut, ?_,
    rfl, ?_, fun a ha b hb => ?_⟩
  · rw [List.length_append, hlen, ← hperm.length_eq, List.length_append]
    omega
  · refine List.pairwise_map.mpr (List.pairwise_append.mpr ⟨h.sorted, hsorted, fun a ha b hb => ?_⟩)
    exact h.near a ha b (htail.subset (List.mem_append_left _ hb))
  · rcases List.mem_append.mp ha with ha | ha
    · exact h.near a ha b (htail.subset (List.mem_append_right _ hb))
    · exact hnear a ha b hb

/-- Where the first of the nearest rows are there, each row that is missing has enough others that
are as near. -/
theorem IsNearest.le_count {live missing : List VecRow} (h : IsNearest distance rows k pairs)
    (hperm : (live ++ missing).Perm rows) (hnodup : (rows.map Prod.fst).Nodup)
    (hids : (pairs.map Prod.fst).take n ⊆ live.map Prod.fst) (hk : n ≤ k) :
    ∀ m ∈ missing, n ≤ live.countP fun near => distance near.2 ≤ distance m.2 := by
  obtain ⟨kept, rest, hkept, hlen, rfl, hsorted, hnear⟩ := h
  rw [List.pairwise_map] at hsorted
  have hahead : Ahead distance kept rest := ⟨hsorted, hnear⟩
  intro m hm
  have hthere : kept.take n ⊆ live := by
    intro a ha
    have hid : a.1 ∈ live.map Prod.fst := by
      refine hids ?_
      rw [List.map_map, ← List.map_take]
      exact List.mem_map_of_mem ha
    obtain ⟨b, hb, hba⟩ := List.mem_map.mp hid
    have hbrow := hperm.subset (List.mem_append_left _ hb)
    have harow := hkept.subset (List.mem_append_left _ (List.mem_of_mem_take ha))
    exact List.inj_on_of_nodup_map hnodup hbrow harow hba ▸ hb
  have hmnot : m ∉ kept.take n := by
    intro hin
    have hdisjoint := List.nodup_append.mp (hperm.nodup_iff.mpr hnodup.of_map)
    exact hdisjoint.2.2 m (hthere hin) m hm rfl
  have hlater : m ∈ kept.drop n ++ rest := by
    have hmrow := hkept.symm.subset (hperm.subset (List.mem_append_right _ hm))
    rw [← List.take_append_drop n kept, List.append_assoc] at hmrow
    exact (List.mem_append.mp hmrow).resolve_left hmnot
  have hfull : (kept.take n).length = n := by
    rw [List.length_take]
    by_contra hshort
    -- then all rows are kept, and this one is among the first
    have hall : rest = [] := by
      have hsum := hkept.length_eq
      rw [List.length_append] at hsum
      exact List.eq_nil_of_length_eq_zero (by omega)
    rw [hall, List.append_nil, List.drop_of_length_le (by omega)] at hlater
    cases hlater
  have hclose : (kept.take n).countP (fun near => distance near.2 ≤ distance m.2) = n := by
    rw [List.countP_eq_length.mpr fun a ha => ?_, hfull]
    exact decide_eq_true ((hahead.take n).near a ha m hlater)
  have honce : (kept.take n).Nodup :=
    ((List.nodup_append.mp (hkept.nodup_iff.mpr hnodup.of_map)).1).sublist (List.take_sublist _ _)
  calc n = (kept.take n).countP fun near => distance near.2 ≤ distance m.2 := hclose.symm
    _ ≤ live.countP fun near => distance near.2 ≤ distance m.2 :=
      (honce.subperm hthere).countP_le _

/-- Where each row that is missing has enough others, the first rows begin a nearest list. -/
theorem Ahead.exists_nearest {live missing : List VecRow} (h : Ahead distance kept others)
    (hperm : (live ++ missing).Perm rows) (hlive : (kept ++ others).Perm live)
    (hlen : n ≤ kept.length ∨ others = []) (hk : n ≤ k)
    (hcount : ∀ m ∈ missing, n ≤ live.countP fun near => distance near.2 ≤ distance m.2) :
    ∃ pairs, IsNearest distance rows k pairs ∧
      (pairs.map Prod.fst).take n = (kept.map Prod.fst).take n := by
  have hfirst : ∀ a ∈ kept.take n, ∀ m ∈ missing, distance a.2 ≤ distance m.2 := by
    intro a ha m hm
    refine h.le_of_count ?_ a ha
    rw [hlive.countP_eq]
    exact hcount m hm
  have hahead : Ahead distance (kept.take n) (kept.drop n ++ others ++ missing) := by
    refine ⟨(h.take n).sorted, fun a ha b hb => ?_⟩
    rcases List.mem_append.mp hb with hb | hb
    · exact (h.take n).near a ha b hb
    · exact hfirst a ha b hb
  have hrows : (kept.take n ++ (kept.drop n ++ others ++ missing)).Perm rows := by
    rw [← List.append_assoc, ← List.append_assoc, List.take_append_drop]
    exact (hlive.append_right missing).trans hperm
  obtain ⟨tail, htail, hnearest⟩ := hahead.append k ((List.length_take_le _ _).trans hk) hrows
  refine ⟨_, hnearest, ?_⟩
  rw [List.map_map, List.map_append, ← List.map_take]
  rcases le_or_gt n kept.length with hle | hshort
  · exact List.take_left' (by rw [List.length_map, List.length_take_of_le hle])
  · -- with fewer rows than asked for, none is missing
    obtain rfl := hlen.resolve_left hshort.not_ge
    rw [List.append_nil] at hlive htail
    have hno : missing = [] := by
      refine List.eq_nil_iff_forall_not_mem.mpr fun m hm => ?_
      have hle := (hcount m hm).trans List.countP_le_length
      rw [← hlive.length_eq] at hle
      omega
    rw [hno, List.append_nil, List.drop_of_length_le hshort.le] at htail
    rw [List.subset_nil.mp htail, List.map_nil, List.append_nil, List.take_of_length_le hshort.le]
    exact List.take_of_length_le (by rw [List.length_map]; exact hshort.le)

/-- **When the first rows are the nearest.** Of the rows that are missing each has enough others
that are as near. -/
theorem first_nearest_iff {live missing : List VecRow} (hperm : (live ++ missing).Perm rows)
    (hnodup : (rows.map Prod.fst).Nodup) (h : Ahead distance kept others)
    (hlive : (kept ++ others).Perm live) (hlen : n ≤ kept.length ∨ others = []) (hk : n ≤ k) :
    (∃ pairs, IsNearest distance rows k pairs ∧
      (pairs.map Prod.fst).take n = (kept.map Prod.fst).take n) ↔
      ∀ m ∈ missing, n ≤ live.countP fun near => distance near.2 ≤ distance m.2 := by
  refine ⟨?_, h.exists_nearest hperm hlive hlen hk⟩
  rintro ⟨pairs, hnearest, hids⟩
  refine hnearest.le_count hperm hnodup ?_ hk
  rw [hids]
  have hkept : kept ⊆ live := fun a ha => hlive.subset (List.mem_append_left _ ha)
  exact List.Subset.trans (List.take_subset n _) (List.map_subset _ hkept)

end Nearest

/-! ## The state -/

/-- What a search reads of a document. -/
structure Preview where
  uri : Option String
  title : Option String
  text : String
  deriving DecidableEq

/-- The hits of the fast search carry a part of the text. -/
abbrev Hit : Type := RankFusion.Hit Preview

/-- The full-text index, and the search of the vector index. -/
class SearchHost where
  /-- What the full-text index asks the authorizer for when it is searched. -/
  ftsActions : List AuthAction
  /-- The rows that match an expression with their ranks, best first if the order is asked for. -/
  matching : List Doc → Text → Bool → Except String (List (ℤ × ℚ))
  /-- a row matches once -/
  matching_nodup : ∀ {docs query ranked found}, matching docs query ranked = .ok found →
    (found.map Prod.fst).Nodup
  /-- from a query to a vector -/
  distance : List F32 → List F32 → ℚ
  search : List VecRow → List F32 → ℕ → List (ℤ × ℚ)
  searchCascade : List VecRow → List F32 → ℕ → ℕ → List (ℤ × ℚ)

/-- What the fast search reads of the daemon. -/
structure State where
  docs : List Doc
  /-- `docs_vec` -/
  docsVec : List VecRow
  /-- `ndarray_idx`, nothing before the warm-up is done -/
  ndarrayIdx : Option (List VecRow)
  sqlConn : Bool
  /-- `SYNAPSE_DISABLE_FAST_SEARCH` is set. -/
  fastDisabled : Bool
  docsVec_nodup : (docsVec.map Prod.fst).Nodup
  /-- a vector is stored with its document, and deleted with it -/
  docsVec_docs : ∀ row ∈ docsVec, row.1 ∈ docs.map Doc.id

/-! ## The search -/

/-- `LIMIT limit as i64` -/
def limitRows {α : Type} (limit : ℕ) (rows : List α) : List α :=
  if limit < 2 ^ 63 then rows.take limit else rows

/-- A row of `docs` as a hit, with the first `SEARCH_SNIPPET_CHARS` characters of its text. -/
def hitOf (d : Doc) (score : ℚ) : Hit :=
  ⟨d.id, score, d.uri, d.title,
    String.ofList (d.text.toList.take searchSnippetChars)⟩

/-- `hydrate_pairs_from_state`: a row is read once. -/
def hydratePairs : List Doc → List (ℤ × ℚ) → List Hit
  | _, [] => []
  | docs, (id, dist) :: rest =>
    match docs.find? (·.id = id) with
    | some d => hitOf d (1 / (1 + dist)) :: hydratePairs (docs.filter (·.id ≠ id)) rest
    | none => hydratePairs docs rest

section Search

variable [H : SearchHost]

/-- The best lexical hits. -/
def lexHits (s : State) (q : Text) (limit : ℕ) : Except String (List Hit) :=
  match Search.fts5MatchQuery q with
  | none => .ok []
  | some query => do
    let ranked := shouldRankLexWithBm25 q
    let found ← H.matching s.docs query ranked
    .ok (limitRows limit (found.filterMap fun row =>
      (s.docs.find? (·.id = row.1)).map (hitOf · (if ranked then -row.2 else row.2))))

/-- `fast_lex` -/
def fastLex (s : State) (q : Text) (limit : ℕ) : Except String (Option (List Hit)) :=
  if (Search.fts5MatchQuery q).isNone then .ok (some [])
  else if !s.sqlConn then .ok none
  else (sandboxed H.ftsActions (lexHits s q limit)).map some

/-- How many rows the index searches exactly. -/
def cascadeWidth (limit : ℕ) : ℕ := max 4096 (limit * 64 % 2 ^ 64)

/-- What the index finds: by the cascade if it has more rows. -/
def indexPairs (rows : List VecRow) (emb : List F32) (limit : ℕ) : List (ℤ × ℚ) :=
  let binaryK := min (cascadeWidth limit) rows.length
  if binaryK < rows.length then H.searchCascade rows emb limit binaryK
  else H.search rows emb limit

/-- `fast_vec` -/
def fastVec (s : State) (emb : List F32) (limit : ℕ) : Except String (Option (List Hit)) :=
  match s.ndarrayIdx with
  | none => .ok none
  | some rows =>
    if rows.isEmpty then .ok none
    else
      let pairs := indexPairs rows emb limit
      if pairs.isEmpty then .ok none
      else if !s.sqlConn then .error "sql_conn unavailable"
      else .ok (some (hydratePairs s.docs pairs))

/-- How many hits of each leg are merged. -/
def legLimit (limit : ℕ) : ℕ := max (min (max limit 1 * 3) (2 ^ 64 - 1)) (max limit 1)

/-- `fast_search_from_state`. Nothing means that the store has to be searched. -/
def fastSearch [UnstableSorts] (aarch64 : Bool) (s : State) (mode : SearchMode) (q : Text)
    (emb : Option (List F32)) (limit : ℕ) : Outcome String (Option (List Hit)) :=
  if s.fastDisabled then .ok none
  else
    match mode, emb with
    | .lex, _ => .ofExcept (fastLex s q (max limit 1))
    | .vec, none => .ok none
    | .vec, some emb => .ofExcept (fastVec s emb (max limit 1))
    | .hybrid, none => .ok none
    | .hybrid, some emb => do
      let lex ← .ofExcept (fastLex s q (legLimit limit))
      let vec ← .ofExcept (fastVec s emb (legLimit limit))
      if (lex.getD []).isEmpty && (vec.getD []).isEmpty then .ok none
      else
        match rrfMergeNeon aarch64 (lex.getD []) (vec.getD []) (max limit 1) with
        | .ok hits => .ok (some hits)
        | _ => .panic

/-! ## Both legs -/

/-- The hits by vector distance over all rows of `docs_vec`. -/
def VecHits (s : State) (emb : List F32) (k : ℕ) (vec : List Hit) : Prop :=
  ∃ pairs, IsNearest (H.distance emb) s.docsVec k pairs ∧ vec = hydratePairs s.docs pairs

/-- The answer is the merge of the best lexical hits and the nearest vectors. -/
def BothLegs [UnstableSorts] (aarch64 : Bool) (s : State) (q : Text) (emb : List F32) (limit : ℕ)
    (hits : List Hit) : Prop :=
  ∃ lex vec, lexHits s q (legLimit limit) = .ok lex ∧ VecHits s emb (legLimit limit) vec ∧
    rrfMergeNeon aarch64 lex vec (max limit 1) = .ok hits

/-- The rows of an index whose documents are there. -/
def living (s : State) (rows : List VecRow) : List VecRow := rows.filter (·.1 ∈ s.docs.map Doc.id)

/-- The index has the rows of `docs_vec` but for the missing ones. It has no more rows than it
searches exactly, and so few of deleted documents that they take no places of others. -/
structure Published (s : State) (limit : ℕ) (rows missing : List VecRow) : Prop where
  indexed : s.ndarrayIdx = some rows
  living_perm : (living s rows ++ missing).Perm s.docsVec
  width : rows.length ≤ cascadeWidth (legLimit limit)
  room : max limit 1 + rows.length ≤ legLimit limit + (living s rows).length

end Search

/-! ## Hydrated hits -/

/-- What a hit carries besides its id and its score. -/
def preview (d : Doc) : Preview := (hitOf d 0).rest

/-- What a search reads of the document with an id. -/
def previewOf (docs : List Doc) (id : ℤ) : Preview :=
  ((docs.find? (·.id = id)).map preview).getD ⟨none, none, ""⟩

theorem find?_filter_ne {docs : List Doc} {id id' : ℤ} (h : id' ≠ id) :
    (docs.filter (·.id ≠ id)).find? (·.id = id') = docs.find? (·.id = id') := by
  rw [List.find?_filter]
  congr 1
  funext d
  by_cases hid : d.id = id'
  · simp [hid, h]
  · simp [hid]

theorem mem_ids_filter_ne {docs : List Doc} {id id' : ℤ} (h : id' ≠ id) :
    id' ∈ (docs.filter (·.id ≠ id)).map Doc.id ↔ id' ∈ docs.map Doc.id := by
  simp only [List.mem_map, List.mem_filter, decide_eq_true_eq]
  constructor
  · rintro ⟨d, ⟨hd, -⟩, rfl⟩
    exact ⟨d, hd, rfl⟩
  · rintro ⟨d, hd, rfl⟩
    exact ⟨d, ⟨hd, h⟩, rfl⟩

/-- The hits have the ids of the documents that are there, in their order. -/
theorem map_id_hydratePairs {docs : List Doc} {pairs : List (ℤ × ℚ)}
    (h : ((pairs.map Prod.fst).filter (· ∈ docs.map Doc.id)).Nodup) :
    (hydratePairs docs pairs).map RankFusion.Hit.id =
      (pairs.map Prod.fst).filter (· ∈ docs.map Doc.id) := by
  induction pairs generalizing docs with
  | nil => rfl
  | cons pair rest ih =>
    rw [List.map_cons] at h ⊢
    rw [hydratePairs]
    split
    next d hd =>
      have hid : d.id = pair.1 := by simpa using List.find?_some hd
      have hthere : decide (pair.1 ∈ docs.map Doc.id) = true :=
        decide_eq_true (hid ▸ List.mem_map_of_mem (List.mem_of_find?_eq_some hd))
      rw [List.filter_cons, if_pos hthere, List.nodup_cons] at h
      -- the row has been taken out, and its id does not come again
      have hsame : (rest.map Prod.fst).filter (· ∈ (docs.filter (·.id ≠ pair.1)).map Doc.id) =
          (rest.map Prod.fst).filter (· ∈ docs.map Doc.id) := by
        refine List.filter_congr fun id hmem => decide_eq_decide.mpr ?_
        by_cases heq : id = pair.1
        · subst heq
          refine iff_of_false (fun hin => ?_) fun hin => h.1 (List.mem_filter.mpr
            ⟨hmem, decide_eq_true hin⟩)
          obtain ⟨d', hd', hid'⟩ := List.mem_map.mp hin
          exact of_decide_eq_true (List.mem_filter.mp hd').2 hid'
        · exact mem_ids_filter_ne heq
      rw [List.filter_cons, if_pos hthere, List.map_cons, ih (hsame ▸ h.2), hsame]
      exact congrArg (· :: _) hid
    next hnone =>
      have hgone : ¬decide (pair.1 ∈ docs.map Doc.id) = true := by
        intro hin
        obtain ⟨d, hd, hid⟩ := List.mem_map.mp (of_decide_eq_true hin)
        exact List.find?_eq_none.mp hnone d hd (decide_eq_true hid)
      rw [List.filter_cons, if_neg hgone] at h ⊢
      exact ih h

/-- A hit shows the document with its id. -/
theorem rest_of_mem_hydratePairs {docs : List Doc} {pairs : List (ℤ × ℚ)} {h : Hit}
    (hmem : h ∈ hydratePairs docs pairs) :
    h.id ∈ docs.map Doc.id ∧ h.rest = previewOf docs h.id := by
  induction pairs generalizing docs with
  | nil => cases hmem
  | cons pair rest ih =>
    rw [hydratePairs] at hmem
    split at hmem
    next d hd =>
      have hid : d.id = pair.1 := by simpa using List.find?_some hd
      rcases List.mem_cons.mp hmem with rfl | hmem
      · refine ⟨List.mem_map_of_mem (List.mem_of_find?_eq_some hd), ?_⟩
        change preview d = previewOf docs d.id
        rw [previewOf, hid, hd]
        rfl
      · obtain ⟨hthere, hrest⟩ := ih hmem
        obtain ⟨d', hd', heq⟩ := List.mem_map.mp hthere
        obtain ⟨hd', hne⟩ := List.mem_filter.mp hd'
        refine ⟨heq ▸ List.mem_map_of_mem hd', hrest.trans ?_⟩
        rw [previewOf, find?_filter_ne (heq ▸ of_decide_eq_true hne), previewOf]
    next => exact ih hmem

/-- The hits with these ids, in this order. -/
def inOrder (docs : List Doc) (ids : List ℤ) : List Hit :=
  ids.zipIdx.map fun (id, i) => ⟨id, reciprocal i, previewOf docs id⟩

theorem map_id_inOrder (docs : List Doc) (ids : List ℤ) :
    (inOrder docs ids).map RankFusion.Hit.id = ids := by
  rw [inOrder, List.map_map]
  exact List.zipIdx_map_fst 0 ids

/-- **The merge with no lexical hits** is the beginning of the other list. -/
theorem rrfMergeNeon_nil [UnstableSorts] (aarch64 : Bool) {docs : List Doc}
    {pairs : List (ℤ × ℚ)} {ids : List ℤ} {limit : ℕ} (hids : (pairs.map Prod.fst).filter
      (· ∈ docs.map Doc.id) = ids) (hnodup : ids.Nodup) (hlimit : 0 < limit) :
    rrfMergeNeon aarch64 [] (hydratePairs docs pairs) limit =
      .ok (inOrder docs (ids.take limit)) := by
  subst hids
  have hids := map_id_hydratePairs hnodup
  rw [← hids] at hnodup ⊢
  have hrest : ∀ h ∈ hydratePairs docs pairs, h.rest = previewOf docs h.id :=
    fun h hh => (rest_of_mem_hydratePairs hh).2
  generalize hydratePairs docs pairs = vec at hnodup hrest ⊢
  by_cases hnil : vec = []
  · rw [hnil, List.map_nil, List.take_nil]
    rfl
  obtain ⟨out, hout, hfused⟩ := rrfMergeNeon_fused aarch64 [] vec (fun h => hnil h.2) hlimit
  rw [hout, hfused.eq_rescored hnodup, rescored, inOrder, ← List.map_take, List.zipIdx_map,
    List.map_map]
  refine congrArg Outcome.ok (List.map_congr_left fun p hp => ?_)
  have hp := List.mem_of_mem_take (List.fst_mem_of_mem_zipIdx hp)
  exact congrArg (RankFusion.Hit.mk p.1.id (reciprocal p.2)) (hrest p.1 hp)

/-! ## What is answered -/

section Legs

variable [H : SearchHost] {aarch64 : Bool} {s : State} {q : Text} {emb : List F32} {limit : ℕ}
  {hits : List Hit}

/-- A query with a word has no lexical leg. -/
theorem fastLex_of_word (hfts : dataVersion ∈ H.ftsActions) (hconn : s.sqlConn = true)
    {query : Text} (hq : Search.fts5MatchQuery q = some query) (k : ℕ) :
    fastLex s q k = .error "authorization denied" := by
  rw [fastLex, hq, hconn, sandboxed_of_dataVersion hfts]
  rfl

/-- What the vector leg has, if it has something. -/
theorem fastVec_some {k : ℕ} {vec : Option (List Hit)} (h : fastVec s emb k = .ok vec)
    (hne : vec.getD [] ≠ []) :
    s.sqlConn = true ∧ ∃ rows, s.ndarrayIdx = some rows ∧
      vec.getD [] = hydratePairs s.docs (indexPairs rows emb k) := by
  rw [fastVec] at h
  split at h
  next =>
    cases h
    exact absurd rfl hne
  next rows hrows =>
    split at h
    · cases h
      exact absurd rfl hne
    dsimp only at h
    split at h
    · cases h
      exact absurd rfl hne
    split at h
    · cases h
    next hconn =>
      cases h
      exact ⟨by simpa using hconn, rows, hrows, rfl⟩

variable [UnstableSorts]

/-- **What is answered** is a query without a word, by what the index finds. -/
theorem fastSearch_answered (hfts : dataVersion ∈ H.ftsActions)
    (h : fastSearch aarch64 s .hybrid q (some emb) limit = .ok (some hits)) :
    Search.fts5MatchQuery q = none ∧ ∃ rows, s.ndarrayIdx = some rows ∧
      rrfMergeNeon aarch64 [] (hydratePairs s.docs (indexPairs rows emb (legLimit limit)))
        (max limit 1) = .ok hits := by
  rw [fastSearch] at h
  split at h
  · cases h
  obtain ⟨lex, hlex, h⟩ := Outcome.bind_eq_ok.mp h
  obtain ⟨vec, hvec, h⟩ := Outcome.bind_eq_ok.mp h
  rw [Outcome.ofExcept_eq_ok] at hlex hvec
  split at h
  · cases h
  next hsome =>
    have hlegs : lex.getD [] = [] → vec.getD [] ≠ [] := by simpa using hsome
    cases hq : Search.fts5MatchQuery q with
    | none =>
      rw [fastLex, hq] at hlex
      cases hlex
      obtain ⟨-, rows, hrows, heq⟩ := fastVec_some hvec (hlegs rfl)
      refine ⟨rfl, rows, hrows, ?_⟩
      rw [heq] at h
      split at h
      next hits' hmerge => exact hmerge.trans (congrArg _ (Option.some_inj.mp (Outcome.ok.inj h)))
      next => cases h
    | some query =>
      cases hconn : s.sqlConn with
      | true =>
        rw [fastLex_of_word hfts hconn hq] at hlex
        cases hlex
      | false =>
        -- without the connection there is nothing
        rw [fastLex, hq, hconn] at hlex
        cases hlex
        obtain ⟨htrue, -⟩ := fastVec_some hvec (hlegs rfl)
        exact absurd (hconn.symm.trans htrue) Bool.false_ne_true

/-- A query without a word is answered if the index finds a document. -/
theorem fastSearch_answers {rows : List VecRow} (henabled : s.fastDisabled = false)
    (hconn : s.sqlConn = true) (hq : Search.fts5MatchQuery q = none)
    (hrows : s.ndarrayIdx = some rows) (hsome : rows ≠ [])
    (hne : hydratePairs s.docs (indexPairs rows emb (legLimit limit)) ≠ []) :
    ∃ hits, fastSearch aarch64 s .hybrid q (some emb) limit = .ok (some hits) := by
  have hroom : 0 < max limit 1 := lt_max_of_lt_right Nat.one_pos
  obtain ⟨out, hout, -⟩ := rrfMergeNeon_fused aarch64 []
    (hydratePairs s.docs (indexPairs rows emb (legLimit limit))) (fun h => hne h.2) hroom
  have hfound : indexPairs rows emb (legLimit limit) ≠ [] := by
    intro hnil
    rw [hnil] at hne
    exact hne rfl
  refine ⟨out, ?_⟩
  rw [fastSearch, henabled, fastLex, hq, fastVec, hrows, hconn]
  simp [Outcome.ofExcept, hfound, hsome, hne, hout]

omit [UnstableSorts] in
/-- What an exact index finds first: rows of documents that are there, with no other such row
nearer. -/
theorem Published.ahead {rows missing : List VecRow} (h : Published s limit rows missing)
    (hexact : IsNearest (H.distance emb) rows (legLimit limit)
      (H.search rows emb (legLimit limit))) :
    ∃ kept others, Ahead (H.distance emb) kept others ∧ (kept ++ others).Perm (living s rows) ∧
      (max limit 1 ≤ kept.length ∨ others = []) ∧
      ((indexPairs rows emb (legLimit limit)).map Prod.fst).filter (· ∈ s.docs.map Doc.id) =
        kept.map Prod.fst := by
  obtain ⟨kept, rest, hperm, hlen, hpairs, hsorted, hnear⟩ := hexact
  have hpairs' : indexPairs rows emb (legLimit limit) = H.search rows emb (legLimit limit) := by
    rw [indexPairs, min_eq_right h.width, if_neg (lt_irrefl _)]
  rw [hpairs, List.pairwise_map] at hsorted
  let there : VecRow → Bool := fun row => row.1 ∈ s.docs.map Doc.id
  have hliving : (kept.filter there ++ rest.filter there).Perm (living s rows) := by
    rw [← List.filter_append]
    exact hperm.filter there
  refine ⟨kept.filter there, rest.filter there, Ahead.filter ⟨hsorted, hnear⟩ there, hliving,
    ?_, ?_⟩
  · by_cases hall : legLimit limit ≤ rows.length
    · -- what is not there is of a deleted document, and there are few of those
      have hgone := hperm.countP_eq (fun row => !there row)
      rw [List.countP_append] at hgone
      have hkept := List.length_eq_countP_add_countP there (l := kept)
      have hrows := List.length_eq_countP_add_countP there (l := rows)
      have hroom := h.room
      rw [living, ← List.countP_eq_length_filter] at hroom
      left
      rw [← List.countP_eq_length_filter]
      change max limit 1 + rows.length ≤ legLimit limit + rows.countP there at hroom
      simp only [Bool.not_eq_true, Bool.decide_eq_false] at hkept hrows
      omega
    · have hsum := hperm.length_eq
      rw [List.length_append] at hsum
      have hnone : rest = [] := List.eq_nil_of_length_eq_zero (by omega)
      exact .inr (by rw [hnone, List.filter_nil])
  · rw [hpairs', hpairs, List.map_map, List.filter_map]
    rfl

/-- **An answer has both legs** if it begins as the nearest rows of `docs_vec` do. -/
theorem Published.bothLegs_iff {rows missing : List VecRow} (hpub : Published s limit rows missing)
    (hfts : dataVersion ∈ H.ftsActions)
    (hexact : IsNearest (H.distance emb) rows (legLimit limit)
      (H.search rows emb (legLimit limit)))
    (h : fastSearch aarch64 s .hybrid q (some emb) limit = .ok (some hits)) :
    ∃ kept others, Ahead (H.distance emb) kept others ∧ (kept ++ others).Perm (living s rows) ∧
      (max limit 1 ≤ kept.length ∨ others = []) ∧
      (BothLegs aarch64 s q emb limit hits ↔
        ∃ pairs, IsNearest (H.distance emb) s.docsVec (legLimit limit) pairs ∧
          (pairs.map Prod.fst).take (max limit 1) = (kept.map Prod.fst).take (max limit 1)) := by
  obtain ⟨hq, rows', hrows', hmerge⟩ := fastSearch_answered hfts h
  obtain rfl := Option.some.inj (hrows'.symm.trans hpub.indexed)
  have hroom : 0 < max limit 1 := lt_max_of_lt_right Nat.one_pos
  obtain ⟨kept, others, hahead, hliving, hlen, hids⟩ := hpub.ahead hexact
  refine ⟨kept, others, hahead, hliving, hlen, ?_⟩
  have hnodup : (kept.map Prod.fst).Nodup := by
    have hperm := ((hliving.append_right missing).trans hpub.living_perm).map Prod.fst
    refine (hperm.nodup_iff.mpr s.docsVec_nodup).sublist (List.Sublist.map _ ?_)
    exact (List.sublist_append_left _ _).trans (List.sublist_append_left _ _)
  rw [rrfMergeNeon_nil aarch64 hids hnodup hroom] at hmerge
  have hlex : lexHits s q (legLimit limit) = .ok [] := by rw [lexHits, hq]
  -- the rows of `docs_vec` have their documents
  have hall : ∀ pairs, IsNearest (H.distance emb) s.docsVec (legLimit limit) pairs →
      rrfMergeNeon aarch64 [] (hydratePairs s.docs pairs) (max limit 1) =
        .ok (inOrder s.docs ((pairs.map Prod.fst).take (max limit 1))) := by
    intro pairs hnearest
    refine rrfMergeNeon_nil aarch64 (List.filter_eq_self.mpr fun id hid => decide_eq_true ?_)
      (hnearest.nodup s.docsVec_nodup) hroom
    obtain ⟨p, hp, rfl⟩ := List.mem_map.mp hid
    obtain ⟨row, hrow, heq⟩ := List.mem_map.mp (hnearest.mem p hp)
    exact heq ▸ s.docsVec_docs row hrow
  constructor
  · rintro ⟨lex', vec', hlex', ⟨pairs, hnearest, rfl⟩, hmerge'⟩
    obtain rfl := Except.ok.inj (hlex.symm.trans hlex')
    rw [hall pairs hnearest, ← hmerge] at hmerge'
    have hsame := congrArg (List.map RankFusion.Hit.id) (Outcome.ok.inj hmerge')
    rw [map_id_inOrder, map_id_inOrder] at hsame
    exact ⟨pairs, hnearest, hsame⟩
  · rintro ⟨pairs, hnearest, hsame⟩
    refine ⟨[], _, hlex, ⟨pairs, hnearest, rfl⟩, ?_⟩
    rw [hall pairs hnearest, hsame, hmerge]

end Legs

/-! ## A row that came too late -/

/-- A distance by the first lane alone. -/
def laneDistance (emb v : List F32) : ℚ := |((emb.headD 0).toNat : ℚ) - (v.headD 0).toNat|

/-- An exact index, and documents that have the query among their words. -/
@[reducible] def SearchHost.firstLane : SearchHost where
  ftsActions := [.select, dataVersion]
  matching docs query _ := .ok (((docs.filter fun d =>
    (Text.splitWhitespace d.text.toList).contains query).map Doc.id).dedup.map (·, 0))
  matching_nodup := by
    intro docs query ranked found h
    cases h
    rw [List.map_map]
    exact (List.map_id' _).symm ▸ List.nodup_dedup _
  distance := laneDistance
  search rows emb k :=
    (nearestRows (laneDistance emb) rows k).map fun row => (row.1, laneDistance emb row.2)
  searchCascade rows emb k _ :=
    (nearestRows (laneDistance emb) rows k).map fun row => (row.1, laneDistance emb row.2)

/-- A vector with the same number everywhere. -/
def vectorOf (n : F32) : List F32 := List.replicate Store.embedDim n

/-- The second document was stored while the warm-up was reading. -/
def lateRow : State where
  docs := [⟨1, none, none, "one", none, 0⟩, ⟨2, none, none, "two", none, 0⟩]
  docsVec := [(1, vectorOf 1), (2, vectorOf 2)]
  ndarrayIdx := some [(1, vectorOf 1)]
  sqlConn := true
  fastDisabled := false
  docsVec_nodup := by decide
  docsVec_docs := by decide

theorem published_lateRow (limit : ℕ) :
    Published lateRow limit [(1, vectorOf 1)] [(2, vectorOf 2)] where
  indexed := rfl
  living_perm := .refl _
  width := (show 1 ≤ 4096 by decide).trans (le_max_left _ _)
  room := Nat.add_le_add_right (le_max_right _ _) 1

/-- The search answers all the same. -/
theorem answers_lateRow (limit : ℕ) :
    let _ := SearchHost.firstLane
    let _ := UnstableSorts.stable
    ∃ hits, fastSearch false lateRow .hybrid "?".toList (some (vectorOf 0)) limit =
      .ok (some hits) := by
  intro _ _
  have hk : 1 ≤ legLimit limit := (le_max_right limit 1).trans (le_max_right _ _)
  have hwidth : min (cascadeWidth (legLimit limit)) ([(1, vectorOf 1)] : List VecRow).length = 1 :=
    min_eq_right (published_lateRow limit).width
  refine fastSearch_answers rfl rfl rfl rfl (List.cons_ne_nil _ _) ?_
  rw [indexPairs, hwidth, List.length_singleton, if_neg (lt_irrefl 1)]
  change hydratePairs lateRow.docs ((nearestRows (laneDistance (vectorOf 0)) [(1, vectorOf 1)]
    (legLimit limit)).map fun row => (row.1, laneDistance (vectorOf 0) row.2)) ≠ []
  rw [nearestRows, List.mergeSort_singleton, List.take_of_length_le hk]
  exact List.cons_ne_nil _ _

end SynapseMemory.FastHybrid
