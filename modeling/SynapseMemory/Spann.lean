import SynapseMemory.Blocks
import SynapseMemory.Bytes
import SynapseMemory.Proto

/-!
# The disk index

The model of `synapse-spann`. Documents are assigned to the nearest of some centroids, and those of
a centroid are written to a posting file, one entry of fixed size after the other. A search looks up
the nearest centroids, reads their postings and sorts what it read by its dot product with the
query.

Nothing is asked of the centroids that k-means returns but their number and length. Each document
has one posting all the same, so a search of all postings is exhaustive, and a loaded index searches
like the one that was built (`build_exhaustive`).

Scores and distances are in a total order. k-means and the text of the manifest are parameters.
-/

namespace SynapseMemory.Spann

open Proto Blocks

/-- `u64` -/
abbrev DocId : Type := BitVec 64

/-- A document and its vector. -/
abbrev DocumentEmbedding : Type := DocId × List F32

/-- The errors of building and of opening an index. -/
inductive Error where
  | shape
  | kMeans
  | notFound
  | manifest
  | sizeMismatch
  deriving DecidableEq

/-! ## Postings -/

/-- `to_le_bytes` -/
def leBytes {w : ℕ} (n : ℕ) (x : BitVec w) : Bytes := Bytes.ofNat n x.toNat

/-- `from_le_bytes` -/
def fromLeBytes (w : ℕ) (b : Bytes) : BitVec w := BitVec.ofNat w (Bytes.toNat b)

/-- Entry size in bytes. -/
def entryBytes (dim : ℕ) : ℕ := 8 + dim * 4

/-- Copy a component to its place in an entry. -/
def writeFloat (start : ℕ) (buf : Bytes) (v : F32 × ℕ) : Outcome Error Bytes :=
  copyAt buf (start + v.2 * 4) (leBytes 4 v.1)

/-- Copy an entry to its place. -/
def writeEntry (entrySz : ℕ) (buf : Bytes) (entry : DocumentEmbedding × ℕ) :
    Outcome Error Bytes := do
  let off := entry.2 * entrySz
  let buf ← copyAt buf off (leBytes 8 entry.1.1)
  entry.1.2.zipIdx.foldlM (writeFloat (off + 8)) buf

/-- `write_posting` -/
def writePosting (entries : List DocumentEmbedding) (dim : ℕ) : Outcome Error Bytes :=
  if entries.isEmpty then .ok []
  else
    entries.zipIdx.foldlM (writeEntry (entryBytes dim))
      (List.replicate (entries.length * entryBytes dim) 0)

/-- An opened posting file. Of an empty file there is no map. -/
structure MmapPostingList where
  mmap : Option Bytes
  dim : ℕ
  deriving DecidableEq

namespace MmapPostingList

/-- A file that was mapped. An empty one is not. -/
def ofBytes (bytes : Bytes) (dim : ℕ) : MmapPostingList :=
  ⟨if bytes.length = 0 then none else some bytes, dim⟩

/-- `open` -/
def open_ (file : Option Bytes) (dim : ℕ) : Outcome Error MmapPostingList :=
  match file with
  | none => .error .notFound
  | some bytes => .ok (ofBytes bytes dim)

/-- An entry of a posting list. -/
def readEntry (dim : ℕ) (mmap : Bytes) (i : ℕ) : Outcome Error DocumentEmbedding := do
  let off := i * entryBytes dim
  let docid ← Outcome.slice mmap off (off + 8)
  let vec ← (List.range dim).mapM fun j => do
    let s := off + 8 + j * 4
    .ok (fromLeBytes 32 (← Outcome.slice mmap s (s + 4)))
  .ok (fromLeBytes 64 docid, vec)

/-- All entries of a posting list. -/
def entries (l : MmapPostingList) : Outcome Error (List DocumentEmbedding) :=
  match l.mmap with
  | none => .ok []
  | some mmap => (List.range (mmap.length / entryBytes l.dim)).mapM (readEntry l.dim mmap)

end MmapPostingList

/-! ## Clusters -/

/-- Scores and distances, in a total order, and the arithmetic on vectors. -/
class VectorFloats where
  Score : Type
  order : LinearOrder Score
  /-- The sum of the squares of the differences. -/
  sqDist : List F32 → List F32 → Score
  dot : List F32 → List F32 → Score
  /-- `f32::MAX` -/
  f32Max : Score

instance [V : VectorFloats] : LinearOrder V.Score := V.order

/-- `linfa`'s k-means on an array of so many columns, with the conversions from and to `f32`. No
clusters are invalid parameters, and the distance of rows without columns is an error that it
unwraps. -/
class KMeans where
  fit (dim : ℕ) (arr : List (List F32)) (k maxIter : ℕ) : Outcome Error (List (List F32))
  fit_pos {dim arr k maxIter centroids} :
    fit dim arr k maxIter = .ok centroids → 0 < k ∧ 0 < dim
  length_fit {dim arr k maxIter centroids} :
    fit dim arr k maxIter = .ok centroids → centroids.length = k
  width_fit {dim arr k maxIter centroids} :
    fit dim arr k maxIter = .ok centroids → ∀ c ∈ centroids, c.length = dim

/-- The rows of an array of a shape. -/
def fromShapeVec {α : Type} (n dim : ℕ) (l : List α) : Outcome Error (List (List α)) := do
  Outcome.ensure (l.length = n * dim) .shape
  .ok ((List.range n).map fun i => block dim i l)

section Clusters

variable [V : VectorFloats]

/-- Assign a document to the nearest centroid. -/
def assignCentroid (centroids : List (List F32)) (vec : List F32) : ℕ :=
  (centroids.zipIdx.foldl (fun best row =>
    let d := V.sqDist row.1 vec
    if d < best.2 then (row.2, d) else best) (0, V.f32Max)).1

/-- The document joins the cluster of its nearest centroid. -/
def assignDoc (centroids : List (List F32)) (clusters : List (List DocumentEmbedding))
    (doc : DocumentEmbedding) : Outcome Error (List (List DocumentEmbedding)) := do
  let c := assignCentroid centroids doc.2
  let entries ← Outcome.get clusters c
  .ok (clusters.set c (entries ++ [doc]))

end Clusters

/-! ## The directory -/

/-- A file of the index. -/
inductive File where
  | manifest
  | centroids
  | posting (i : ℕ)
  deriving DecidableEq

/-- The directory of the index. -/
abbrev Dir : Type := File → Option Bytes

/-- The file of a cluster is written. -/
def writePostingAt (dim : ℕ) (dir : Dir) (entries : List DocumentEmbedding × ℕ) :
    Outcome Error Dir := do
  let buf ← writePosting entries.1 dim
  .ok (Function.update dir (.posting entries.2) (some buf))

/-- Run k-means on all vectors, write the centroids and a posting for each cluster. -/
def buildIndex [VectorFloats] [KMeans] (dir : Dir) (docs : List DocumentEmbedding)
    (nClusters dim maxIter : ℕ) : Outcome Error (Dir × List (List F32)) := do
  let arr ← fromShapeVec docs.length dim (docs.flatMap Prod.snd)
  let k := min nClusters docs.length
  let centroids ← KMeans.fit dim arr k maxIter
  let centroidsArr ← fromShapeVec k dim centroids.flatten
  let clusters ← docs.foldlM (assignDoc centroidsArr) (List.replicate k [])
  let dir := Function.update dir .centroids (some (centroids.flatten.flatMap (leBytes 4)))
  let dir ← clusters.zipIdx.foldlM (writePostingAt dim) dir
  .ok (dir, centroids)

/-- `load_centroids` -/
def loadCentroids (file : Option Bytes) (nClusters dim : ℕ) : Outcome Error (List (List F32)) :=
  match file with
  | none => .error .notFound
  | some bytes => do
    Outcome.ensure (bytes.length = nClusters * dim * 4) .sizeMismatch
    let floats := (chunksExact 4 bytes).map (fromLeBytes 32)
    -- a chunk size of 0 is a panic
    Outcome.demand (dim ≠ 0)
    .ok (Blocks.chunks dim floats)

/-! ## Search -/

section Search

variable [V : VectorFloats]

/-- `nearest_centroids` -/
def nearestCentroids (centroids : List (List F32)) (query : List F32) (nprobe : ℕ) : List ℕ :=
  let dists := centroids.zipIdx.map fun c => (c.2, V.sqDist c.1 query)
  ((dists.mergeSort fun a b => a.2 ≤ b.2).take nprobe).map Prod.fst

/-- The candidates of a posting. -/
def scan (postingLists : List MmapPostingList) (query : List F32) (cid : ℕ) :
    Outcome Error (List (DocId × V.Score)) :=
  match postingLists[cid]? with
  | none => .ok []
  | some l => do .ok ((← l.entries).map fun entry => (entry.1, V.dot entry.2 query))

/-- `scan_and_rerank` -/
def scanAndRerank (postingLists : List MmapPostingList) (clusterIds : List ℕ) (query : List F32)
    (k : ℕ) : Outcome Error (List (DocId × V.Score)) := do
  let candidates ← clusterIds.mapM (scan postingLists query)
  let sorted := candidates.flatten.mergeSort fun a b => b.2 ≤ a.2
  .ok ((sorted.destutter fun a b => a.1 ≠ b.1).take k)

end Search

/-! ## The index -/

/-- `SpannConfig` -/
structure SpannConfig where
  nClusters : ℕ
  dim : ℕ
  nDocs : ℕ
  maxIter : ℕ
  deriving DecidableEq

/-- `Manifest` -/
structure Manifest where
  nClusters : ℕ
  nDocs : ℕ
  dim : ℕ
  deriving DecidableEq

/-- `serde_json` on manifests -/
class ManifestText where
  toStringPretty : Manifest → Bytes
  fromStr : Bytes → Option Manifest

/-- The text of the manifest reads as the manifest. -/
def Manifest.RoundTrips [ManifestText] (m : Manifest) : Prop :=
  ManifestText.fromStr (ManifestText.toStringPretty m) = some m

/-- `SpannIndex` -/
structure SpannIndex where
  config : SpannConfig
  centroids : List (List F32)
  postingLists : List MmapPostingList
  deriving DecidableEq

namespace SpannIndex

/-- The posting lists of all clusters are opened. -/
def openPostingLists (dir : Dir) (nClusters dim : ℕ) : Outcome Error (List MmapPostingList) :=
  (List.range nClusters).mapM fun i => MmapPostingList.open_ (dir (.posting i)) dim

/-- Build a new index from documents, persist it to a directory. -/
def build [VectorFloats] [KMeans] [T : ManifestText] (dir : Dir) (docs : List DocumentEmbedding)
    (config : SpannConfig) : Outcome Error (Dir × SpannIndex) := do
  let (dir, centroids) ← buildIndex dir docs config.nClusters config.dim config.maxIter
  let nClusters := centroids.length
  let manifest := ⟨nClusters, docs.length, config.dim⟩
  let dir := Function.update dir .manifest (some (T.toStringPretty manifest))
  let postingLists ← openPostingLists dir nClusters config.dim
  .ok (dir, ⟨{ config with nClusters := nClusters, nDocs := docs.length }, centroids, postingLists⟩)

/-- Load an existing index from a directory. -/
def load [T : ManifestText] (dir : Dir) : Outcome Error SpannIndex :=
  match dir .manifest with
  | none => .error .notFound
  | some mj =>
    match T.fromStr mj with
    | none => .error .manifest
    | some manifest => do
      let centroids ← loadCentroids (dir .centroids) manifest.nClusters manifest.dim
      let postingLists ← openPostingLists dir manifest.nClusters manifest.dim
      .ok ⟨⟨manifest.nClusters, manifest.dim, manifest.nDocs, 100⟩, centroids, postingLists⟩

/-- `search` -/
def search [V : VectorFloats] (index : SpannIndex) (query : List F32) (k nprobe : ℕ) :
    Outcome Error (List (DocId × V.Score)) :=
  let probe := min nprobe index.centroids.length
  let clusterIds := nearestCentroids index.centroids query probe
  scanAndRerank index.postingLists clusterIds query k

end SpannIndex

/-! ## The posting codec -/

theorem fromLeBytes_leBytes {w n : ℕ} (h : w ≤ 8 * n) (x : BitVec w) :
    fromLeBytes w (leBytes n x) = x := by
  have hlt : x.toNat < 256 ^ n := by
    refine x.isLt.trans_le ?_
    rw [show (256 : ℕ) = 2 ^ 8 by norm_num, ← pow_mul]
    exact Nat.pow_le_pow_right (by norm_num) h
  rw [fromLeBytes, leBytes, Bytes.toNat_ofNat_of_lt hlt, BitVec.ofNat_toNat, BitVec.setWidth_eq]

/-- An entry in bytes. -/
def encodeEntry (entry : DocumentEmbedding) : Bytes :=
  leBytes 8 entry.1 ++ (entry.2.map (leBytes 4)).flatten

theorem length_leBytes_of_mem {vec : List F32} : ∀ b ∈ vec.map (leBytes 4), b.length = 4 := by
  intro b hb
  obtain ⟨x, -, rfl⟩ := List.mem_map.mp hb
  exact Bytes.length_ofNat 4 _

theorem length_encodeEntry {entry : DocumentEmbedding} {dim : ℕ} (h : entry.2.length = dim) :
    (encodeEntry entry).length = entryBytes dim := by
  rw [encodeEntry, List.length_append, length_flatten length_leBytes_of_mem, List.length_map, h,
    leBytes, Bytes.length_ofNat, entryBytes]

theorem length_encodeEntry_of_mem {entries : List DocumentEmbedding} {dim : ℕ}
    (h : ∀ entry ∈ entries, entry.2.length = dim) :
    ∀ b ∈ entries.map encodeEntry, b.length = entryBytes dim := by
  intro b hb
  obtain ⟨entry, hentry, rfl⟩ := List.mem_map.mp hb
  exact length_encodeEntry (h entry hentry)

/-- An entry is written behind those before it. -/
theorem writeEntry_append {entry : DocumentEmbedding} {dim i : ℕ} (h : entry.2.length = dim)
    {front rest : Bytes} (hfront : front.length = i * entryBytes dim)
    (hrest : entryBytes dim ≤ rest.length) :
    writeEntry (entryBytes dim) (front ++ rest) (entry, i) =
      .ok (front ++ encodeEntry entry ++ rest.drop (entryBytes dim)) := by
  have hid : (leBytes 8 entry.1).length = 8 := Bytes.length_ofNat 8 _
  have hend : (front ++ leBytes 8 entry.1).length = i * entryBytes dim + 8 + 0 * 4 := by
    rw [List.length_append, hfront, hid]
  have hroom : entry.2.length * 4 ≤ (rest.drop 8).length := by
    rw [entryBytes] at hrest
    rw [h, List.length_drop]
    omega
  have hfloats := foldlM_append (f := writeFloat (i * entryBytes dim + 8))
    (fun x _ => Bytes.length_ofNat 4 x.toNat)
    (fun x _ _ _ _ hfront hrest => copyAt_append (b := leBytes 4 x) hfront hrest) hend hroom
  rw [writeEntry]
  dsimp only
  rw [copyAt_append hfront (by rw [hid]; rw [entryBytes] at hrest; omega), Outcome.ok_bind, hid]
  refine hfloats.trans ?_
  rw [List.drop_drop, encodeEntry, List.append_assoc front, h]
  rfl

/-- **A posting is its entries** in bytes. -/
theorem writePosting_eq {entries : List DocumentEmbedding} {dim : ℕ}
    (h : ∀ entry ∈ entries, entry.2.length = dim) :
    writePosting entries dim = .ok (entries.map encodeEntry).flatten := by
  rw [writePosting]
  split
  next hempty => simp [List.isEmpty_iff.mp hempty]
  next =>
    have hzero : (List.replicate (entries.length * entryBytes dim) (0 : UInt8)).length =
        entries.length * entryBytes dim := List.length_replicate
    have hempty : ([] : Bytes).length = 0 + 0 * entryBytes dim := by simp
    have hall := foldlM_append (fun entry hentry => length_encodeEntry (h entry hentry))
      (fun entry hentry _ _ _ hfront hrest =>
        writeEntry_append (h entry hentry) (by rwa [Nat.zero_add] at hfront) hrest)
      hempty hzero.ge
    rw [List.nil_append, List.nil_append, List.drop_of_length_le hzero.le, List.append_nil] at hall
    exact hall

/-- An entry is read from its place. -/
theorem readEntry_flatten {entries : List DocumentEmbedding} {dim i : ℕ}
    (h : ∀ entry ∈ entries, entry.2.length = dim) {entry : DocumentEmbedding}
    (hi : entries[i]? = some entry) :
    MmapPostingList.readEntry dim (entries.map encodeEntry).flatten i = .ok entry := by
  have hdim : entry.2.length = dim := h entry (List.mem_of_getElem? hi)
  have hid : (leBytes 8 entry.1).length = 8 := Bytes.length_ofNat 8 _
  have hrows := length_encodeEntry_of_mem h
  have hrow : (entries.map encodeEntry)[i]? = some (encodeEntry entry) := by
    rw [List.getElem?_map, hi]
    rfl
  have hdocid : (Outcome.slice (entries.map encodeEntry).flatten (i * entryBytes dim)
      (i * entryBytes dim + 8) : Outcome Error Bytes) = .ok (leBytes 8 entry.1) := by
    refine (slice_flatten (a := 0) (b := 8) hrows hrow (by rw [entryBytes]; omega)).trans ?_
    rw [List.drop_zero, encodeEntry, List.take_left' hid]
  have hfloat : ∀ j ∈ List.range dim, (do
      let b ← Outcome.slice (entries.map encodeEntry).flatten (i * entryBytes dim + 8 + j * 4)
        (i * entryBytes dim + 8 + j * 4 + 4)
      .ok (fromLeBytes 32 b) : Outcome Error F32) = .ok (entry.2.getD j 0) := by
    intro j hj
    have hless : j < entry.2.length := hdim ▸ List.mem_range.mp hj
    have hblock : block 4 j (entry.2.map (leBytes 4)).flatten = leBytes 4 entry.2[j] :=
      block_flatten length_leBytes_of_mem (by simp [hless])
    have hslice := slice_flatten (ε := Error) (a := 8 + j * 4) (b := 4) hrows hrow
      (by rw [entryBytes]; omega)
    rw [← Nat.add_assoc, encodeEntry, ← List.drop_drop, List.drop_left' hid] at hslice
    rw [hslice, Outcome.ok_bind]
    rw [block] at hblock
    rw [hblock, fromLeBytes_leBytes (by norm_num), List.getD_eq_getElem?_getD,
      List.getElem?_eq_getElem hless]
    rfl
  rw [MmapPostingList.readEntry]
  dsimp only
  rw [hdocid, Outcome.ok_bind, Outcome.mapM_of hfloat, Outcome.ok_bind,
    fromLeBytes_leBytes (by norm_num), ← hdim]
  rw [map_range_getD fun x => x, List.map_id']

/-- **The posting codec**: an opened posting has the entries that were written. -/
theorem entries_ofBytes {entries : List DocumentEmbedding} {dim : ℕ}
    (h : ∀ entry ∈ entries, entry.2.length = dim) :
    (MmapPostingList.ofBytes (entries.map encodeEntry).flatten dim).entries = .ok entries := by
  have hlength : (entries.map encodeEntry).flatten.length = entries.length * entryBytes dim := by
    rw [length_flatten (length_encodeEntry_of_mem h), List.length_map]
  have hpos : 0 < entryBytes dim := by
    rw [entryBytes]
    omega
  have hread : ∀ i ∈ List.range entries.length,
      MmapPostingList.readEntry dim (entries.map encodeEntry).flatten i =
        .ok (entries.getD i (0, [])) := by
    intro i hi
    have hless := List.mem_range.mp hi
    rw [readEntry_flatten h (List.getElem?_eq_getElem hless), List.getD_eq_getElem?_getD,
      List.getElem?_eq_getElem hless]
    rfl
  rw [MmapPostingList.ofBytes, MmapPostingList.entries]
  dsimp only
  split
  next hnone =>
    have hzero : entries.length * entryBytes dim = 0 := by
      by_contra hne
      rw [hlength, if_neg hne] at hnone
      cases hnone
    rw [List.eq_nil_of_length_eq_zero ((Nat.mul_eq_zero.mp hzero).resolve_right hpos.ne')]
  next mmap hsome =>
    obtain rfl : (entries.map encodeEntry).flatten = mmap := by
      split at hsome
      · cases hsome
      · exact Option.some_inj.mp hsome
    rw [hlength, Nat.mul_div_cancel _ hpos, Outcome.mapM_of hread,
      map_range_getD fun entry => entry, List.map_id']

/-! ## Clusters -/

theorem fromShapeVec_flatten {α : Type} {dim : ℕ} {rows : List (List α)}
    (h : ∀ r ∈ rows, r.length = dim) : fromShapeVec rows.length dim rows.flatten = .ok rows := by
  rw [fromShapeVec, Outcome.ensure_of (length_flatten h), Outcome.ok_bind, map_block_flatten h]

section Clusters

variable [V : VectorFloats]

theorem assignCentroid_lt {centroids : List (List F32)} (h : 0 < centroids.length)
    (vec : List F32) : assignCentroid centroids vec < centroids.length := by
  rw [assignCentroid]
  refine List.foldlRecOn (motive := fun best : ℕ × V.Score => best.1 < centroids.length) _ _ h ?_
  intro best hbest row hrow
  dsimp only
  split
  · exact List.snd_lt_of_mem_zipIdx hrow
  · exact hbest

omit V in
/-- An entry more. -/
theorem flatten_set_perm {α : Type} {clusters : List (List α)} {entries : List α} {c : ℕ}
    (h : clusters[c]? = some entries) (entry : α) :
    (clusters.set c (entries ++ [entry])).flatten.Perm (entry :: clusters.flatten) := by
  induction clusters generalizing c with
  | nil => cases h
  | cons first clusters ih =>
    cases c with
    | zero =>
      obtain rfl := Option.some_inj.mp h
      rw [List.set_cons_zero, List.flatten_cons, List.flatten_cons, List.append_assoc]
      exact List.perm_middle
    | succ c =>
      rw [List.set_cons_succ, List.flatten_cons, List.flatten_cons]
      exact ((ih h).append_left first).trans List.perm_middle

/-- **The clusters have the documents**, each once. -/
theorem assignDocs_perm {centroids : List (List F32)} (hpos : 0 < centroids.length)
    (docs : List DocumentEmbedding) {clusters : List (List DocumentEmbedding)}
    (hlength : clusters.length = centroids.length) :
    ∃ clusters', docs.foldlM (assignDoc centroids) clusters = .ok clusters' ∧
      clusters'.length = centroids.length ∧
      clusters'.flatten.Perm (docs ++ clusters.flatten) := by
  induction docs generalizing clusters with
  | nil => exact ⟨clusters, rfl, hlength, .rfl⟩
  | cons doc docs ih =>
    have hless : assignCentroid centroids doc.2 < clusters.length :=
      (assignCentroid_lt hpos doc.2).trans_eq hlength.symm
    have hget := List.getElem?_eq_getElem hless
    have hstep : assignDoc centroids clusters doc =
        .ok (clusters.set (assignCentroid centroids doc.2)
          (clusters[assignCentroid centroids doc.2] ++ [doc])) := by
      rw [assignDoc, Outcome.get_of_getElem? hget, Outcome.ok_bind]
    have hset : (clusters.set (assignCentroid centroids doc.2)
        (clusters[assignCentroid centroids doc.2] ++ [doc])).length = centroids.length := by
      rw [List.length_set, hlength]
    obtain ⟨clusters', hfold, hlength', hperm⟩ := ih hset
    refine ⟨clusters', ?_, hlength', hperm.trans ?_⟩
    · rw [List.foldlM_cons, hstep, Outcome.ok_bind, hfold]
    · exact ((flatten_set_perm hget doc).append_left docs).trans List.perm_middle

end Clusters

/-! ## The directory -/

/-- The bytes of a posting. -/
def posting (entries : List DocumentEmbedding) : Bytes := (entries.map encodeEntry).flatten

/-- **The postings are written**, and nothing else. -/
theorem writePostings_eq {dim i : ℕ} {clusters : List (List DocumentEmbedding)}
    (h : ∀ entries ∈ clusters, ∀ entry ∈ entries, entry.2.length = dim) (dir : Dir) :
    ∃ dir', (clusters.zipIdx i).foldlM (writePostingAt dim) dir = .ok dir' ∧
      (∀ c entries, clusters[c]? = some entries →
        dir' (.posting (i + c)) = some (posting entries)) ∧
      ∀ file, (∀ c, file ≠ .posting (i + c)) → dir' file = dir file := by
  induction clusters generalizing i dir with
  | nil => exact ⟨dir, rfl, by simp, fun _ _ => rfl⟩
  | cons first clusters ih =>
    obtain ⟨hfirst, hrest⟩ := List.forall_mem_cons.mp h
    have hstep : writePostingAt dim dir (first, i) =
        .ok (Function.update dir (.posting i) (some (posting first))) := by
      rw [writePostingAt, writePosting_eq hfirst]
      rfl
    obtain ⟨dir', hfold, hposts, hothers⟩ := ih hrest (i := i + 1)
      (Function.update dir (.posting i) (some (posting first)))
    refine ⟨dir', ?_, ?_, ?_⟩
    · rw [List.zipIdx_cons, List.foldlM_cons, hstep, Outcome.ok_bind, hfold]
    · intro c entries hc
      cases c with
      | zero =>
        obtain rfl := Option.some_inj.mp hc
        rw [hothers _ fun c heq => by injection heq; omega]
        exact Function.update_self _ _ _
      | succ c =>
        rw [← hposts c entries hc]
        congr 2
        omega
    · intro file hfile
      have hne : file ≠ .posting i := hfile 0
      rw [hothers file fun c heq => hfile (c + 1) (by rw [heq]; congr 1; omega),
        Function.update_of_ne hne]

/-- The posting lists of clusters. -/
def opened (dim : ℕ) (clusters : List (List DocumentEmbedding)) : List MmapPostingList :=
  clusters.map fun entries => MmapPostingList.ofBytes (posting entries) dim

theorem entries_opened {dim : ℕ} {clusters : List (List DocumentEmbedding)}
    (h : ∀ entries ∈ clusters, ∀ entry ∈ entries, entry.2.length = dim) :
    (opened dim clusters).mapM MmapPostingList.entries = .ok clusters := by
  rw [opened, List.mapM_map]
  refine (Outcome.mapM_of fun entries hentries => ?_).trans (congrArg _ (List.map_id clusters))
  exact entries_ofBytes (h entries hentries)

/-- A directory that has the postings is opened. -/
theorem openPostingLists_eq {dim : ℕ} {clusters : List (List DocumentEmbedding)} {dir : Dir}
    (h : ∀ c entries, clusters[c]? = some entries → dir (.posting c) = some (posting entries)) :
    SpannIndex.openPostingLists dir clusters.length dim = .ok (opened dim clusters) := by
  have hopen : ∀ c ∈ List.range clusters.length, MmapPostingList.open_ (dir (.posting c)) dim =
      .ok (MmapPostingList.ofBytes (posting (clusters.getD c [])) dim) := by
    intro c hc
    have hget := List.getElem?_eq_getElem (List.mem_range.mp hc)
    rw [h c _ hget, MmapPostingList.open_, List.getD_eq_getElem?_getD, hget, Option.getD_some]
  rw [SpannIndex.openPostingLists, Outcome.mapM_of hopen, opened,
    map_range_getD fun entries => MmapPostingList.ofBytes (posting entries) dim]

/-- **Centroids come back** from their file. -/
theorem loadCentroids_eq {dim : ℕ} (hdim : 0 < dim) {centroids : List (List F32)}
    (h : ∀ c ∈ centroids, c.length = dim) :
    loadCentroids (some (centroids.flatten.flatMap (leBytes 4))) centroids.length dim =
      .ok centroids := by
  have hbytes : ∀ b ∈ centroids.flatten.map (leBytes 4), b.length = 4 := length_leBytes_of_mem
  have hlength : (centroids.flatten.flatMap (leBytes 4)).length = centroids.length * dim * 4 := by
    rw [List.flatMap_def, length_flatten hbytes, List.length_map, length_flatten h]
  have hfloats : (centroids.flatten.map (leBytes 4)).map (fromLeBytes 32) = centroids.flatten := by
    rw [List.map_map]
    exact List.map_id'' (fun x => fromLeBytes_leBytes (by norm_num) x) _
  rw [loadCentroids, Outcome.ensure_of hlength, Outcome.ok_bind]
  dsimp only
  rw [Outcome.demand_of hdim.ne', Outcome.ok_bind, List.flatMap_def,
    chunksExact_flatten (by norm_num) hbytes, hfloats, chunks_flatten hdim h]

/-! ## Search -/

section Search

variable [V : VectorFloats]

/-- The best documents for a query: as many as asked for, distinct ones, with their scores, the best
first, and no other document is better. -/
structure TopHits (docs : List DocumentEmbedding) (query : List F32) (k : ℕ)
    (hits : List (DocId × V.Score)) : Prop where
  length_eq : hits.length = min k docs.length
  nodup : (hits.map Prod.fst).Nodup
  exact_ : ∀ hit ∈ hits, ∃ doc ∈ docs, hit = (doc.1, V.dot doc.2 query)
  sorted : hits.Pairwise fun a b => b.2 ≤ a.2
  best : ∀ doc ∈ docs, doc.1 ∉ hits.map Prod.fst → ∀ hit ∈ hits, V.dot doc.2 query ≤ hit.2

/-- A document with its score. -/
def hit (query : List F32) (doc : DocumentEmbedding) : DocId × V.Score := (doc.1, V.dot doc.2 query)

theorem nearestCentroids_perm {centroids : List (List F32)} {query : List F32} {nprobe : ℕ}
    (h : centroids.length ≤ nprobe) :
    (nearestCentroids centroids query nprobe).Perm (List.range centroids.length) := by
  rw [nearestCentroids, List.take_of_length_le (by simpa using h)]
  refine ((List.mergeSort_perm _ _).map Prod.fst).trans (.of_eq ?_)
  rw [List.map_map, List.range_eq_range', ← List.zipIdx_map_snd]
  rfl

theorem map_fst_hit (query : List F32) (docs : List DocumentEmbedding) :
    (docs.map (hit query)).map Prod.fst = docs.map Prod.fst := by
  rw [List.map_map]
  rfl

/-- **Sort, drop repetitions, cut off**: of candidates with different ids nothing is dropped. -/
theorem topHits_rerank {docs : List DocumentEmbedding} (hids : (docs.map Prod.fst).Nodup)
    {query : List F32} {candidates : List (DocId × V.Score)}
    (hperm : candidates.Perm (docs.map (hit query))) (k : ℕ) :
    TopHits docs query k (((candidates.mergeSort fun a b => b.2 ≤ a.2).destutter
      fun a b => a.1 ≠ b.1).take k) := by
  generalize hsort : candidates.mergeSort (fun a b => b.2 ≤ a.2) = sorted
  have hsorted : sorted.Pairwise fun a b => b.2 ≤ a.2 := by
    rw [← hsort]
    exact List.pairwise_mergeSort' (Order.Preimage Prod.snd (· ≥ ·)) candidates
  have hall : sorted.Perm (docs.map (hit query)) :=
    hsort ▸ (List.mergeSort_perm _ _).trans hperm
  have hnodup : (sorted.map Prod.fst).Nodup := by
    rw [(hall.map Prod.fst).nodup_iff, map_fst_hit]
    exact hids
  have hkeep : sorted.destutter (fun a b => a.1 ≠ b.1) = sorted :=
    List.destutter_of_isChain _ _ (List.pairwise_map.mp hnodup).isChain
  rw [hkeep]
  have hmem : ∀ h ∈ sorted.take k, ∃ doc ∈ docs, h = hit query doc := by
    intro h hh
    obtain ⟨doc, hdoc, rfl⟩ := List.mem_map.mp (hall.mem_iff.mp (List.mem_of_mem_take hh))
    exact ⟨doc, hdoc, rfl⟩
  refine ⟨?_, ?_, hmem, hsorted.sublist (List.take_sublist k sorted), ?_⟩
  · rw [List.length_take, hall.length_eq, List.length_map]
  · exact hnodup.sublist ((List.take_sublist k sorted).map Prod.fst)
  · intro doc hdoc hnot h hh
    have hin : hit query doc ∈ sorted.take k ++ sorted.drop k := by
      rw [List.take_append_drop]
      exact hall.mem_iff.mpr (List.mem_map_of_mem hdoc)
    have hout : hit query doc ∈ sorted.drop k :=
      (List.mem_append.mp hin).resolve_left fun htake =>
        hnot (List.mem_map_of_mem (f := Prod.fst) htake)
    rw [← List.take_append_drop k sorted] at hsorted
    exact (List.pairwise_append.mp hsorted).2.2 h hh _ hout

/-- **A scan of all postings is exhaustive.** -/
theorem scanAndRerank_top {dim : ℕ} {clusters : List (List DocumentEmbedding)}
    (hdim : ∀ entries ∈ clusters, ∀ entry ∈ entries, entry.2.length = dim)
    {docs : List DocumentEmbedding} (hids : (docs.map Prod.fst).Nodup)
    (hdocs : clusters.flatten.Perm docs) {clusterIds : List ℕ}
    (hall : clusterIds.Perm (List.range clusters.length)) (query : List F32) (k : ℕ) :
    ∃ hits, scanAndRerank (opened dim clusters) clusterIds query k = .ok hits ∧
      TopHits docs query k hits := by
  have hscan : ∀ c ∈ clusterIds, scan (opened dim clusters) query c =
      .ok ((clusters.getD c []).map (hit query)) := by
    intro c hc
    have hless := List.mem_range.mp (hall.mem_iff.mp hc)
    rw [scan, opened, List.getElem?_map, List.getElem?_eq_getElem hless]
    dsimp only [Option.map_some]
    rw [posting, entries_ofBytes (hdim _ (List.getElem_mem hless)), Outcome.ok_bind,
      List.getD_eq_getElem?_getD, List.getElem?_eq_getElem hless]
    rfl
  have hperm : ((clusterIds.map fun c => (clusters.getD c []).map (hit query)).flatten).Perm
      (docs.map (hit query)) := by
    have hclusters := map_range_getD (List.map (hit query)) clusters []
    refine ((hall.map _).trans (.of_eq hclusters)).flatten.trans ?_
    rw [← List.map_flatten]
    exact hdocs.map (hit query)
  rw [scanAndRerank, Outcome.mapM_of hscan, Outcome.ok_bind]
  exact ⟨_, rfl, topHits_rerank hids hperm k⟩

end Search

/-! ## The index -/

/-- In lists without a repetition an element is in one list. -/
theorem existsUnique_of_nodup {α : Type} {lists : List (List α)} (h : lists.flatten.Nodup) {a : α}
    (ha : a ∈ lists.flatten) : ∃! i : ℕ, ∃ l : List α, lists[i]? = some l ∧ a ∈ l := by
  obtain ⟨l, hl, hal⟩ := List.mem_flatten.mp ha
  obtain ⟨i, hi⟩ := List.mem_iff_getElem?.mp hl
  refine ⟨i, ⟨l, hi, hal⟩, ?_⟩
  rintro j ⟨l', hj, hal'⟩
  obtain ⟨hjless, rfl⟩ := List.getElem?_eq_some_iff.mp hj
  obtain ⟨hiless, rfl⟩ := List.getElem?_eq_some_iff.mp hi
  have hdisjoint := List.pairwise_iff_getElem.mp (List.nodup_flatten.mp h).2
  rcases lt_trichotomy j i with hless | heq | hless
  · exact absurd hal (hdisjoint j i hjless hiless hless hal')
  · exact heq
  · exact absurd hal' (hdisjoint i j hiless hjless hless hal)

section Index

variable [V : VectorFloats] [K : KMeans] [T : ManifestText]

omit V K T in
/-- The entries of the clusters are as long as the documents. -/
theorem dim_of_perm {docs : List DocumentEmbedding} {dim : ℕ}
    (hdim : ∀ doc ∈ docs, doc.2.length = dim) {clusters : List (List DocumentEmbedding)}
    (hperm : clusters.flatten.Perm docs) :
    ∀ entries ∈ clusters, ∀ entry ∈ entries, entry.2.length = dim :=
  fun entries hentries entry hentry =>
    hdim entry (hperm.mem_iff.mp (List.mem_flatten.mpr ⟨entries, hentries, hentry⟩))

omit T in
/-- **What a build writes.** -/
theorem buildIndex_eq {docs : List DocumentEmbedding} {nClusters dim maxIter : ℕ}
    (hdim : ∀ doc ∈ docs, doc.2.length = dim) {centroids : List (List F32)}
    (hfit : K.fit dim (docs.map Prod.snd) (min nClusters docs.length) maxIter = .ok centroids)
    (dir : Dir) :
    ∃ (dir' : Dir) (clusters : List (List DocumentEmbedding)),
      buildIndex dir docs nClusters dim maxIter = .ok (dir', centroids) ∧
      clusters.length = centroids.length ∧ clusters.flatten.Perm docs ∧
      dir' .centroids = some (centroids.flatten.flatMap (leBytes 4)) ∧
      ∀ c entries, clusters[c]? = some entries → dir' (.posting c) = some (posting entries) := by
  obtain ⟨hk, -⟩ := K.fit_pos hfit
  have hcount := K.length_fit hfit
  have harr : fromShapeVec docs.length dim (docs.flatMap Prod.snd) = .ok (docs.map Prod.snd) := by
    have hrows : ∀ row ∈ docs.map Prod.snd, row.length = dim :=
      List.forall_mem_map.mpr hdim
    rw [List.flatMap_def, ← fromShapeVec_flatten hrows, List.length_map]
  have hcentroids : fromShapeVec (min nClusters docs.length) dim centroids.flatten =
      .ok centroids := by
    rw [← fromShapeVec_flatten (K.width_fit hfit), hcount]
  have hempty : (List.replicate (min nClusters docs.length) ([] : List DocumentEmbedding)).length =
      centroids.length := by
    rw [List.length_replicate, hcount]
  obtain ⟨clusters, hassign, hlength, hperm⟩ :=
    assignDocs_perm (hcount ▸ hk) docs hempty
  rw [List.flatten_replicate_nil, List.append_nil] at hperm
  have hentries := dim_of_perm hdim hperm
  obtain ⟨dir', hwrite, hposts, hothers⟩ := writePostings_eq (i := 0) hentries
    (Function.update dir .centroids (some (centroids.flatten.flatMap (leBytes 4))))
  refine ⟨dir', clusters, ?_, hlength, hperm, ?_, ?_⟩
  · rw [buildIndex, harr, Outcome.ok_bind]
    dsimp only
    rw [hfit, Outcome.ok_bind, hcentroids, Outcome.ok_bind, hassign, Outcome.ok_bind, hwrite]
    rfl
  · rw [hothers _ (by simp), Function.update_self]
  · intro c entries hc
    rw [← hposts c entries hc, Nat.zero_add]

/-- **What is built is loaded.** -/
theorem build_eq {docs : List DocumentEmbedding} {config : SpannConfig}
    (hdim : ∀ doc ∈ docs, doc.2.length = config.dim) {centroids : List (List F32)}
    (hfit : K.fit config.dim (docs.map Prod.snd) (min config.nClusters docs.length) config.maxIter =
      .ok centroids)
    (hmanifest : Manifest.RoundTrips ⟨centroids.length, docs.length, config.dim⟩) (dir : Dir) :
    ∃ (dir' : Dir) (clusters : List (List DocumentEmbedding)),
      SpannIndex.build dir docs config =
        .ok (dir', ⟨{ config with nClusters := centroids.length, nDocs := docs.length }, centroids,
          opened config.dim clusters⟩) ∧
      SpannIndex.load dir' = .ok ⟨⟨centroids.length, config.dim, docs.length, 100⟩, centroids,
        opened config.dim clusters⟩ ∧
      clusters.length = centroids.length ∧ clusters.flatten.Perm docs := by
  obtain ⟨-, hpos⟩ := K.fit_pos hfit
  obtain ⟨dir', clusters, hbuild, hlength, hperm, hcentroids, hposts⟩ :=
    buildIndex_eq hdim hfit dir
  generalize hdir : Function.update dir' .manifest
    (some (T.toStringPretty ⟨centroids.length, docs.length, config.dim⟩)) = dir''
  have hopen : SpannIndex.openPostingLists dir'' centroids.length config.dim =
      .ok (opened config.dim clusters) := by
    rw [← hlength]
    refine openPostingLists_eq fun c entries hc => ?_
    rw [← hdir, Function.update_of_ne (by simp), hposts c entries hc]
  have hmj : dir'' .manifest =
      some (T.toStringPretty ⟨centroids.length, docs.length, config.dim⟩) := by
    rw [← hdir, Function.update_self]
  have hfile : dir'' .centroids = some (centroids.flatten.flatMap (leBytes 4)) := by
    rw [← hdir, Function.update_of_ne (by simp), hcentroids]
  refine ⟨dir'', clusters, ?_, ?_, hlength, hperm⟩
  · rw [SpannIndex.build, hbuild, Outcome.ok_bind]
    dsimp only
    rw [hdir, hopen, Outcome.ok_bind]
  · rw [Manifest.RoundTrips] at hmanifest
    rw [SpannIndex.load, hmj]
    dsimp only
    rw [hmanifest]
    dsimp only
    rw [hfile, loadCentroids_eq hpos (K.width_fit hfit), Outcome.ok_bind, hopen, Outcome.ok_bind]

/-- **A search of all clusters is exhaustive**, in the index that is built and in the one that is
loaded. -/
theorem build_exhaustive {docs : List DocumentEmbedding} {config : SpannConfig}
    (hids : (docs.map Prod.fst).Nodup) (hdim : ∀ doc ∈ docs, doc.2.length = config.dim)
    {centroids : List (List F32)}
    (hfit : K.fit config.dim (docs.map Prod.snd) (min config.nClusters docs.length) config.maxIter =
      .ok centroids)
    (hmanifest : Manifest.RoundTrips ⟨centroids.length, docs.length, config.dim⟩) (dir : Dir) :
    ∃ dir' index, SpannIndex.build dir docs config = .ok (dir', index) ∧
      (∃ lists : List (List DocumentEmbedding),
        index.postingLists.mapM MmapPostingList.entries = .ok lists ∧ lists.flatten.Perm docs ∧
          ∀ doc ∈ docs, ∃! c : ℕ, ∃ l : List DocumentEmbedding, lists[c]? = some l ∧ doc ∈ l) ∧
      (∀ query k nprobe, centroids.length ≤ nprobe →
        ∃ hits, index.search query k nprobe = .ok hits ∧ TopHits docs query k hits) ∧
      ∃ index', SpannIndex.load dir' = .ok index' ∧
        ∀ query k nprobe, index'.search query k nprobe = index.search query k nprobe := by
  obtain ⟨dir', clusters, hbuild, hload, hlength, hperm⟩ := build_eq hdim hfit hmanifest dir
  have hentries := dim_of_perm hdim hperm
  have hnodup : clusters.flatten.Nodup := hperm.nodup_iff.mpr (.of_map Prod.fst hids)
  refine ⟨dir', _, hbuild, ⟨clusters, entries_opened hentries, hperm, ?_⟩, ?_, _, hload,
    fun _ _ _ => rfl⟩
  · exact fun doc hdoc => existsUnique_of_nodup hnodup (hperm.mem_iff.mpr hdoc)
  · intro query k nprobe hprobe
    refine scanAndRerank_top hentries hids hperm ?_ query k
    rw [hlength]
    exact nearestCentroids_perm (le_min hprobe le_rfl)

end Index

/-! ## Two documents with the same vector -/

/-- `1.0` -/
def oneBits : F32 := 0x3f800000#32

/-- Vectors of zeros and ones. -/
@[reducible] def VectorFloats.bits : VectorFloats where
  Score := ℤ
  order := inferInstance
  sqDist a b := (List.zipWith (fun x y => if x = y then 0 else 1) a b).sum
  dot a b := (List.zipWith (fun x y => if x = oneBits ∧ y = oneBits then 1 else 0) a b).sum
  f32Max := 2 ^ 128 - 2 ^ 104

/-- The centroids of rows that are all the same. -/
@[reducible] def KMeans.sameRows : KMeans where
  fit dim arr k _ :=
    if k = 0 then .error .kMeans
    else if dim = 0 then .panic
    else .ok (List.replicate k ((List.range dim).map fun j => (arr.headD []).getD j 0))
  fit_pos {dim arr k maxIter centroids} h := by
    split at h
    · cases h
    · split at h
      · cases h
      · omega
  length_fit {dim arr k maxIter centroids} h := by
    split at h
    · cases h
    · split at h
      · cases h
      · injection h with h
        rw [← h, List.length_replicate]
  width_fit {dim arr k maxIter centroids} h := by
    split at h
    · cases h
    · split at h
      · cases h
      · injection h with h
        intro c hc
        rw [← h] at hc
        rw [List.eq_of_mem_replicate hc, List.length_map, List.length_range]

/-- A manifest as `to_string_pretty` writes it. -/
def manifestText (m : Manifest) : Bytes :=
  ("\x7b\n  \"n_clusters\": " ++ toString m.nClusters ++ ",\n  \"n_docs\": " ++ toString m.nDocs ++
    ",\n  \"dim\": " ++ toString m.dim ++ "\n\x7d").toUTF8.toList

/-- Reads one manifest. -/
@[reducible] def ManifestText.oneCluster : ManifestText where
  toStringPretty m := manifestText m
  fromStr b := if b = manifestText ⟨1, 2, 1⟩ then some ⟨1, 2, 1⟩ else none

theorem roundTrips_oneCluster : @Manifest.RoundTrips .oneCluster ⟨1, 2, 1⟩ := by
  exact if_pos rfl

theorem build_exhaustive_sameRows :
    let _ := VectorFloats.bits
    let _ := KMeans.sameRows
    let _ := ManifestText.oneCluster
    ∃ dir' index, SpannIndex.build (fun _ => none) [(7, [oneBits]), (9, [oneBits])] ⟨1, 1, 0, 10⟩ =
        .ok (dir', index) ∧
      (∃ lists : List (List DocumentEmbedding),
        index.postingLists.mapM MmapPostingList.entries = .ok lists ∧
          lists.flatten.Perm [(7, [oneBits]), (9, [oneBits])] ∧
          ∀ doc ∈ [((7 : DocId), [oneBits]), (9, [oneBits])],
            ∃! c : ℕ, ∃ l : List DocumentEmbedding, lists[c]? = some l ∧ doc ∈ l) ∧
      (∀ query k nprobe, 1 ≤ nprobe → ∃ hits, index.search query k nprobe = .ok hits ∧
        TopHits [(7, [oneBits]), (9, [oneBits])] query k hits) ∧
      ∃ index', SpannIndex.load dir' = .ok index' ∧
        ∀ query k nprobe, index'.search query k nprobe = index.search query k nprobe := by
  intro _ _ _
  exact @build_exhaustive .bits .sameRows .oneCluster [(7, [oneBits]), (9, [oneBits])] ⟨1, 1, 0, 10⟩
    (by decide) (by decide) [[oneBits]] rfl roundTrips_oneCluster _

end SynapseMemory.Spann
