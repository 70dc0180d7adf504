import SynapseMemory.Bloom
import SynapseMemory.Bytes
import SynapseMemory.Search

/-!
# Shards behind Bloom filters

`split` puts the documents with embeddings into one store for each cluster, and next to each store
it keeps a Bloom filter of the words of the texts. A query first drops the shards whose filters have
none of its words, unless that would drop them all.

What is kept of a filter is its bits and the number of its hashes. The keys of the hash function are
not, and a filter that is read back draws new ones each time. So it answers with the positions that
the new keys give to a word, among those that the old keys gave to the words of the texts. The words
are those between blanks, as they are written, where the full-text index has tokens of its own, of
titles too.

The filter library and the clustering are parameters, and the two texts that the manifest wraps
bytes into, Base64 and TOML, are left out.
-/

namespace SynapseMemory.Sharding

open Proto

/-- The library of the filters: for a number of items the words and the hashes of a filter, and
under some keys the positions of an item among so many bits. -/
class Fastbloom where
  Keys : Type
  blocks : ℕ → ℕ
  hashes : ℕ → UInt32
  index : Keys → ℕ → UInt32 → Text → List ℕ
  blocks_pos : ∀ n, 0 < blocks n
  index_lt : ∀ keys bits hashes item, 0 < bits → ∀ p ∈ index keys bits hashes item, p < bits

/-! ## Filters -/

/-- `chunks_exact(8)`, each read as a number. -/
def wordsOfBytes : Bytes → Bloom.Words
  | a :: b :: c :: d :: e :: f :: g :: h :: rest =>
    BitVec.ofNat 64 (Bytes.toNat [a, b, c, d, e, f, g, h]) :: wordsOfBytes rest
  | _ => []

theorem wordsOfBytes_append (w : BitVec 64) (rest : Bytes) :
    wordsOfBytes (Bytes.ofNat 8 w.toNat ++ rest) = w :: wordsOfBytes rest := by
  have hword : BitVec.ofNat 64 (Bytes.toNat (Bytes.ofNat 8 w.toNat)) = w := by
    rw [Bytes.toNat_ofNat_of_lt w.isLt, BitVec.ofNat_toNat, BitVec.setWidth_eq]
  exact congrArg (· :: wordsOfBytes rest) hword

theorem wordsOfBytes_flatMap (ws : Bloom.Words) :
    wordsOfBytes (ws.flatMap fun w => Bytes.ofNat 8 w.toNat) = ws := by
  induction ws with
  | nil => rfl
  | cons w rest ih => rw [List.flatMap_cons, wordsOfBytes_append, ih]

section Filters

variable [F : Fastbloom]

/-- A Bloom filter: the keys of its hash function, and its bits. -/
structure Filter where
  keys : F.Keys
  numHashes : UInt32
  bits : Bloom.Words

namespace Filter

/-- The bits of an item. -/
def positions (f : Filter) (item : Text) : List ℕ :=
  F.index f.keys (64 * f.bits.length) f.numHashes item

/-- `with_false_pos(0.01).expected_items(n)` -/
def expected (keys : F.Keys) (n : ℕ) : Filter :=
  ⟨keys, F.hashes n, List.replicate (F.blocks n) 0⟩

/-- `insert` -/
def insert (f : Filter) (item : Text) : Filter :=
  { f with bits := Bloom.insert f.bits (f.positions item) }

/-- `contains` -/
def contains (f : Filter) (item : Text) : Bool := Bloom.contains f.bits (f.positions item)

/-- `bloom_to_bytes` -/
def toBytes (f : Filter) : Bytes :=
  Bytes.ofNat 4 f.numHashes.toNat ++ f.bits.flatMap fun w => Bytes.ofNat 8 w.toNat

end Filter

/-- `bincode_bloom_from_bytes`, with the keys that the filter draws. -/
def bloomFromBytes (keys : F.Keys) (bytes : Bytes) : Except String Filter :=
  if bytes.length < 4 then .error "bloom bytes too short"
  else
    let numHashes := UInt32.ofNat (Bytes.toNat (bytes.take 4))
    let bits := wordsOfBytes (bytes.drop 4)
    if bits = [] then .error "bloom bits empty" else .ok ⟨keys, numHashes, bits⟩

/-- What is read back is the filter under other keys. -/
theorem bloomFromBytes_toBytes {f : Filter} (h : f.bits ≠ []) (keys : F.Keys) :
    bloomFromBytes keys f.toBytes = .ok { f with keys } := by
  have hlength : (Bytes.ofNat 4 f.numHashes.toNat).length = 4 := Bytes.length_ofNat 4 _
  have htake : f.toBytes.take 4 = Bytes.ofNat 4 f.numHashes.toNat := List.take_left' hlength
  have hdrop : f.toBytes.drop 4 = f.bits.flatMap fun w => Bytes.ofNat 8 w.toNat :=
    List.drop_left' hlength
  have hshort : ¬f.toBytes.length < 4 := by
    rw [Filter.toBytes, List.length_append, hlength]
    omega
  have hhashes : UInt32.ofNat (Bytes.toNat (Bytes.ofNat 4 f.numHashes.toNat)) = f.numHashes := by
    rw [Bytes.toNat_ofNat_of_lt f.numHashes.toNat_lt, UInt32.ofNat_toNat]
  rw [bloomFromBytes, if_neg hshort, htake, hdrop, wordsOfBytes_flatMap, hhashes]
  exact if_neg h

theorem foldl_insert_eq (items : List Text) (f : Filter) :
    items.foldl Filter.insert f = { f with bits := Bloom.insertAll f.positions items f.bits } := by
  induction items generalizing f with
  | nil => rfl
  | cons x rest ih =>
    have hpositions : (f.insert x).positions = f.positions := by
      funext item
      rw [Filter.positions, Filter.insert, Bloom.length_insert]
      rfl
    rw [List.foldl_cons, ih, hpositions]
    rfl

theorem positions_expected (keys : F.Keys) (n : ℕ) :
    (Filter.expected keys n).positions = F.index keys (64 * F.blocks n) (F.hashes n) := by
  funext item
  rw [Filter.positions, Filter.expected, List.length_replicate]

theorem length_bits (keys : F.Keys) (n : ℕ) (items : List Text) :
    (items.foldl Filter.insert (Filter.expected keys n)).bits.length = F.blocks n := by
  rw [foldl_insert_eq, Bloom.insertAll_eq, Bloom.length_insert]
  exact List.length_replicate

theorem bits_ne_nil (keys : F.Keys) (n : ℕ) (items : List Text) :
    (items.foldl Filter.insert (Filter.expected keys n)).bits ≠ [] := by
  rw [← List.length_pos_iff, length_bits]
  exact F.blocks_pos n

/-- What a filter answers when it is read back under other keys. -/
theorem contains_rekeyed_iff (keys keys' : F.Keys) (n : ℕ) (items : List Text) (item : Text) :
    ({ items.foldl Filter.insert (Filter.expected keys n) with keys := keys' } : Filter).contains
        item = true ↔
      ∀ p ∈ F.index keys' (64 * F.blocks n) (F.hashes n) item,
        ∃ x ∈ items, p ∈ F.index keys (64 * F.blocks n) (F.hashes n) x := by
  have hpositions : ({ items.foldl Filter.insert (Filter.expected keys n) with
      keys := keys' } : Filter).positions item =
        F.index keys' (64 * F.blocks n) (F.hashes n) item := by
    rw [Filter.positions, length_bits, foldl_insert_eq]
    rfl
  rw [Filter.contains, hpositions, foldl_insert_eq, positions_expected]
  refine Bloom.contains_insertAll_iff ?_ _
  intro x _ p hp
  exact F.index_lt _ _ _ x (Nat.mul_pos (by decide) (F.blocks_pos n)) p hp

/-- Under the keys it was built with, a filter has all of its items. -/
theorem contains_of_mem (keys : F.Keys) (n : ℕ) {items : List Text} {item : Text}
    (h : item ∈ items) :
    (items.foldl Filter.insert (Filter.expected keys n)).contains item = true := by
  have hall := (contains_rekeyed_iff keys keys n items item).mpr fun p hp => ⟨item, h, hp⟩
  rw [foldl_insert_eq] at hall ⊢
  exact hall

end Filters

/-! ## Splitting a store -/

/-- `linfa`'s k-means: the cluster of each embedding. -/
class Clustering where
  predict : ℕ → List (List F32) → Except String (List ℕ)

section Split

variable [Blake3] [F : Fastbloom]

/-- A document and its embedding. -/
structure DocRow where
  uri : Option String
  title : Option String
  text : String
  meta_ : Option Json
  emb : List F32

/-- `load_all_docs_with_embeddings`. The rows of `docs` are in the order of their ids. -/
def loadAllDocsWithEmbeddings (store : Store) : List DocRow :=
  store.docs.rows.flatMap fun d =>
    (store.vecs.filter fun v => v.1 = d.id && v.2.length = Store.embedDim).map fun v =>
      ⟨d.uri, d.title, d.text, d.meta_, v.2⟩

/-- What is kept of a shard: its number, the documents that were put into it, the store at its path
and the bytes of its filter. -/
structure Shard where
  number : ℕ
  rows : List DocRow
  store : Store
  bloom : Bytes

/-- The words of the texts of a shard. -/
def tokens (rows : List DocRow) : List Text :=
  rows.flatMap fun r => Text.splitWhitespace r.text.toList

/-- The items that the filter of a shard is made for. -/
def expectedItems (rows : List DocRow) : ℕ := rows.length * 50 + 1

/-- A row of an input, as a request. -/
def DocRow.request (r : DocRow) : PutRequest := ⟨r.uri, r.title, r.text, r.meta_, some r.emb⟩

/-- One turn of the loop over the clusters. What is in the file of the shard already stays there. -/
def splitShard (keys : F.Keys) (existing : Store) (now : ℤ) (number : ℕ) (rows : List DocRow) :
    Except Store.Error Shard := do
  let bloom := (tokens rows).foldl Filter.insert (Filter.expected keys (expectedItems rows))
  let (store, _) ← existing.putBatch (rows.map fun r => (now, r.request))
  .ok ⟨number, rows, store, bloom.toBytes⟩

/-- The loop over the clusters. -/
def splitShards (keys : ℕ → F.Keys) (existing : ℕ → Store) (now : ℤ) :
    List (ℕ × List DocRow) → Except Store.Error (List Shard)
  | [] => .ok []
  | (number, rows) :: rest => do
    let shard ← splitShard (keys number) (existing number) now number rows
    let shards ← splitShards keys existing now rest
    .ok (shard :: shards)

/-- The clusters that are not empty. -/
def groups (k : ℕ) (rows : List DocRow) (assignments : List ℕ) : List (ℕ × List DocRow) :=
  ((List.range k).map fun number =>
    (number, ((rows.zip assignments).filter fun p => p.2 = number).map Prod.fst)).filter
      fun g => !g.2.isEmpty

/-- `split`, with the keys that each filter draws and what is in the files of the shards. -/
def split [Clustering] (keys : ℕ → F.Keys) (existing : ℕ → Store) (now : ℤ) (store : Store)
    (nShards : Option ℕ) : Except Store.Error (List Shard) :=
  let rows := loadAllDocsWithEmbeddings store
  if rows.isEmpty then .error (.other "no embedded docs to shard")
  else
    let k := nShards.getD (min (max (rows.length / 5000) 2) 32)
    match Clustering.predict k (rows.map DocRow.emb) with
    | .error e => .error (.other ("kmeans: " ++ e))
    | .ok assignments => splitShards keys existing now (groups k rows assignments)

/-! ## The check of a query -/

/-- `bloom_contains`, with the keys that the filter draws for this call. -/
def Shard.bloomContains (s : Shard) (keys : F.Keys) (token : Text) : Bool :=
  match bloomFromBytes keys s.bloom with
  | .ok bloom => bloom.contains token
  | .error _ => true

/-- The places of the shards that a query goes on with, and for each shard and token the keys that
are drawn. -/
def prefilter (shards : List Shard) (drawn : ℕ → ℕ → F.Keys) (q : Text) : List ℕ :=
  let words := Text.splitWhitespace q
  let all := List.range shards.length
  if words.isEmpty then all
  else
    let candidates := (shards.zipIdx.filter fun s =>
      words.zipIdx.any fun t => s.1.bloomContains (drawn s.2 t.2) t.1).map Prod.snd
    if candidates.isEmpty then all else candidates

/-- A document of the shard matches the full-text search for the query. -/
def Shard.Matches [SearchEngine] (s : Shard) (q : Text) : Prop :=
  ∃ limit id, s.store.FindsLex q limit id ∧ ∃ d ∈ s.store.docs.rows, d.id = id

/-- A shard with a document that matches is not skipped. -/
def NeverSkipped [SearchEngine] (shards : List Shard) (drawn : ℕ → ℕ → F.Keys) (q : Text) : Prop :=
  ∀ i s, shards[i]? = some s → s.Matches q → i ∈ prefilter shards drawn q

/-- Under the keys of the check, the positions of the word are positions of words of the shard
under the keys of the build. -/
def Shard.Covers (s : Shard) (built : ℕ → F.Keys) (keys : F.Keys) (token : Text) : Prop :=
  let n := expectedItems s.rows
  ∀ p ∈ F.index keys (64 * F.blocks n) (F.hashes n) token,
    ∃ item ∈ tokens s.rows, p ∈ F.index (built s.number) (64 * F.blocks n) (F.hashes n) item

instance (s : Shard) (built : ℕ → F.Keys) (keys : F.Keys) (token : Text) :
    Decidable (s.Covers built keys token) :=
  inferInstanceAs (Decidable (∀ p ∈ F.index keys (64 * F.blocks (expectedItems s.rows))
    (F.hashes (expectedItems s.rows)) token, ∃ item ∈ tokens s.rows,
      p ∈ F.index (built s.number) (64 * F.blocks (expectedItems s.rows))
        (F.hashes (expectedItems s.rows)) item))

/-- A word of the query is covered by the shard at a place. -/
def Shard.CoversSome (s : Shard) (built : ℕ → F.Keys) (drawn : ℕ → F.Keys) (q : Text) : Prop :=
  ∃ j token, (Text.splitWhitespace q)[j]? = some token ∧ s.Covers built (drawn j) token

theorem splitShards_bloom {keys : ℕ → F.Keys} {existing : ℕ → Store} {now : ℤ}
    {gs : List (ℕ × List DocRow)} {shards : List Shard}
    (h : splitShards keys existing now gs = .ok shards) :
    ∀ s ∈ shards, s.bloom = ((tokens s.rows).foldl Filter.insert
      (Filter.expected (keys s.number) (expectedItems s.rows))).toBytes := by
  induction gs generalizing shards with
  | nil =>
    cases h
    exact fun _ hs => absurd hs List.not_mem_nil
  | cons g rest ih =>
    obtain ⟨shard, hshard, h⟩ := bind_eq_ok.mp h
    obtain ⟨shards', hrest, h⟩ := bind_eq_ok.mp h
    cases h
    obtain ⟨store, _, h⟩ := bind_eq_ok.mp hshard
    cases h
    exact List.forall_mem_cons.mpr ⟨rfl, ih hrest⟩

theorem split_bloom [Clustering] {keys : ℕ → F.Keys} {existing : ℕ → Store} {now : ℤ}
    {store : Store} {nShards : Option ℕ} {shards : List Shard}
    (h : split keys existing now store nShards = .ok shards) :
    ∀ s ∈ shards, s.bloom = ((tokens s.rows).foldl Filter.insert
      (Filter.expected (keys s.number) (expectedItems s.rows))).toBytes := by
  rw [split] at h
  split at h
  · cases h
  · dsimp only at h
    split at h
    · cases h
    · exact splitShards_bloom h

/-- What the check of one word answers. -/
theorem bloomContains_iff {s : Shard} {built : ℕ → F.Keys}
    (hbloom : s.bloom = ((tokens s.rows).foldl Filter.insert
      (Filter.expected (built s.number) (expectedItems s.rows))).toBytes)
    (keys : F.Keys) (token : Text) :
    s.bloomContains keys token = true ↔ s.Covers built keys token := by
  rw [Shard.bloomContains, hbloom, bloomFromBytes_toBytes (bits_ne_nil _ _ _)]
  exact contains_rekeyed_iff ..

/-- The shards whose places are candidates are those that the check of some word keeps. -/
theorem mem_candidates_iff {shards : List Shard} {drawn : ℕ → ℕ → F.Keys} {words : List Text}
    {i : ℕ} :
    i ∈ (shards.zipIdx.filter fun s =>
        words.zipIdx.any fun t => s.1.bloomContains (drawn s.2 t.2) t.1).map Prod.snd ↔
      ∃ s, shards[i]? = some s ∧ ∃ j token, words[j]? = some token ∧
        s.bloomContains (drawn i j) token = true := by
  simp only [List.mem_map, List.mem_filter, List.any_eq_true, Prod.exists,
    List.mem_zipIdx_iff_getElem?]
  refine ⟨?_, ?_⟩
  · rintro ⟨s, _, ⟨hs, token, j, htoken, hcontains⟩, rfl⟩
    exact ⟨s, hs, j, token, htoken, hcontains⟩
  · rintro ⟨s, hs, j, token, htoken, hcontains⟩
    exact ⟨s, i, ⟨hs, token, j, htoken, hcontains⟩, rfl⟩

/-- The query has a word that the shard covers. -/
theorem mem_prefilter_iff {shards : List Shard} {built : ℕ → F.Keys}
    (hbloom : ∀ s ∈ shards, s.bloom = ((tokens s.rows).foldl Filter.insert
      (Filter.expected (built s.number) (expectedItems s.rows))).toBytes)
    (drawn : ℕ → ℕ → F.Keys) (q : Text) {i : ℕ} {s : Shard} (hs : shards[i]? = some s) :
    i ∈ prefilter shards drawn q ↔ Text.splitWhitespace q = [] ∨
      (∀ j (t : Shard), shards[j]? = some t → ¬t.CoversSome built (drawn j) q) ∨
        s.CoversSome built (drawn i) q := by
  have hcovers : ∀ j (t : Shard), shards[j]? = some t → (t.CoversSome built (drawn j) q ↔
      ∃ k token, (Text.splitWhitespace q)[k]? = some token ∧
        t.bloomContains (drawn j k) token = true) := by
    intro j t ht
    refine exists₂_congr fun k token => and_congr_right fun _ => ?_
    exact (bloomContains_iff (hbloom t (List.mem_of_getElem? ht)) _ token).symm
  have hall : i ∈ List.range shards.length :=
    List.mem_range.mpr (List.getElem?_eq_some_iff.mp hs).1
  rw [prefilter]
  dsimp only
  split_ifs with hwords hnone
  · exact iff_of_true hall (.inl (List.isEmpty_iff.mp hwords))
  · refine iff_of_true hall (.inr (.inl fun j t ht hcover => ?_))
    have hmem := mem_candidates_iff.mpr ⟨t, ht, (hcovers j t ht).mp hcover⟩
    rw [List.isEmpty_iff.mp hnone] at hmem
    cases hmem
  · rw [mem_candidates_iff]
    refine ⟨?_, ?_⟩
    · rintro ⟨t, ht, hcover⟩
      cases hs.symm.trans ht
      exact .inr (.inr ((hcovers i s hs).mpr hcover))
    · rintro (hempty | hnobody | hcover)
      · exact absurd (List.isEmpty_iff.mpr hempty) hwords
      · obtain ⟨j, hj⟩ := List.exists_mem_of_ne_nil _ (fun h => hnone (List.isEmpty_iff.mpr h))
        obtain ⟨t, ht, hcover⟩ := mem_candidates_iff.mp hj
        exact absurd ((hcovers j t ht).mpr hcover) (hnobody j t ht)
      · exact ⟨s, hs, (hcovers i s hs).mp hcover⟩

/-- **When the check skips no match.** For a store that was split, whatever keys the filters drew
and draw, no shard with a document that matches is skipped if and only if the query has no words,
or no shard covers any of them, or every shard with such a document does. -/
theorem never_skipped_iff [Clustering] [SearchEngine] {built : ℕ → F.Keys} {existing : ℕ → Store}
    {now : ℤ} {store : Store} {nShards : Option ℕ} {shards : List Shard}
    (hsplit : split built existing now store nShards = .ok shards) (drawn : ℕ → ℕ → F.Keys)
    (q : Text) :
    NeverSkipped shards drawn q ↔ Text.splitWhitespace q = [] ∨
      (∀ i (s : Shard), shards[i]? = some s → ¬s.CoversSome built (drawn i) q) ∨
        ∀ i (s : Shard), shards[i]? = some s → s.Matches q → s.CoversSome built (drawn i) q := by
  have hmem := fun {i s} => mem_prefilter_iff (split_bloom hsplit) drawn q (i := i) (s := s)
  refine ⟨fun h => ?_, fun h i s hs hmatch => ?_⟩
  · by_cases hwords : Text.splitWhitespace q = []
    · exact .inl hwords
    · by_cases hnone : ∀ i (s : Shard), shards[i]? = some s → ¬s.CoversSome built (drawn i) q
      · exact .inr (.inl hnone)
      · refine .inr (.inr fun i s hs hmatch => ?_)
        exact (((hmem hs).mp (h i s hs hmatch)).resolve_left hwords).resolve_left hnone
  · refine (hmem hs).mpr (h.imp_right (Or.imp_right fun hcovers => ?_))
    exact hcovers i s hs hmatch

omit F in
/-- A shard whose own search has a hit. -/
theorem matches_of_searchLex [SearchEngine] {s : Shard} {q : Text} {limit : ℕ} {hits : List Hit}
    (hok : s.store.searchLex q limit = .ok hits) (hne : hits ≠ []) : s.Matches q := by
  obtain ⟨h, hmem⟩ := List.exists_mem_of_ne_nil _ hne
  obtain ⟨hfind, d, hd, score, rfl⟩ := Store.mem_searchLex hok hmem
  exact ⟨limit, d.id, hfind, d, hd, rfl⟩

end Split

/-! ## Two shards -/

/-- `SearchEngine.scan` on the texts in lower case. -/
@[reducible] def SearchEngine.caseless : SearchEngine :=
  { SearchEngine.scan with
    lexical := fun log query limit =>
      let lower (text : String) := String.ofList (Text.toAsciiLowercase text.toList)
      let log := log.map fun
        | .insert id title text => .insert id title (lower text)
        | .delete id title text => .delete id title (lower text)
      SearchEngine.scan.lexical log (Text.toAsciiLowercase query) limit }

/-- Seven neighbouring positions from a polynomial of the characters, whose start is the key. -/
@[reducible] def Fastbloom.polynomial : Fastbloom where
  Keys := ℕ
  blocks n := n * 10 / 64 + 1
  hashes _ := 7
  index keys bits hashes item :=
    let hash := item.foldl (fun h c => h * 31 + c.toNat) keys
    (List.range hashes.toNat).map fun i => (hash + i) % bits
  blocks_pos _ := Nat.succ_pos _
  index_lt := by
    intro keys bits hashes item hbits p hp
    obtain ⟨i, _, rfl⟩ := List.mem_map.mp hp
    exact Nat.mod_lt _ hbits

/-- The clusters take turns. -/
@[reducible] def Clustering.inTurn : Clustering := ⟨fun k embs => .ok (embs.zipIdx.map (·.2 % k))⟩

/-- A store with a document for each text. -/
def storeOf [Blake3] (texts : List String) : Store :=
  texts.foldl (fun s text =>
    s.after (s.put 0 ⟨none, none, text, none, some (List.replicate 384 0)⟩)) .empty

/-- Its shards, where no files were there before. -/
def shardsOf [Blake3] [Fastbloom] [Clustering] (built : ℕ → Fastbloom.Keys) (texts : List String) :
    Except Store.Error (List Shard) :=
  split built (fun _ => .empty) 0 (storeOf texts) none

/-- The first shard is skipped and its search has a hit. -/
theorem exists_skipped [Blake3] [F : Fastbloom] [Clustering] [SearchEngine]
    {built : ℕ → F.Keys} {texts : List String} {drawn : ℕ → ℕ → F.Keys} {q : Text}
    (h : ((shardsOf built texts).toOption.any fun shards =>
      0 ∉ prefilter shards drawn q ∧ shards[0]?.any fun s =>
        (s.store.searchLex q 10).toOption.any (! ·.isEmpty)) = true) :
    ∃ shards, shardsOf built texts = .ok shards ∧ ¬NeverSkipped shards drawn q := by
  obtain ⟨shards, hshards, h⟩ := (Option.any_eq_true _ _).mp h
  obtain ⟨hskip, hhit⟩ := of_decide_eq_true h
  obtain ⟨s, hs, hhit⟩ := (Option.any_eq_true _ _).mp hhit
  obtain ⟨hits, hhits, hne⟩ := (Option.any_eq_true _ _).mp hhit
  refine ⟨shards, toOption_eq_some.mp hshards, fun hnever => hskip (hnever 0 s hs ?_)⟩
  exact matches_of_searchLex (toOption_eq_some.mp hhits) (by simpa using hne)

/-- Filters that are read back under the keys they were built with, and a word that the texts
share. -/
theorem sharedWord_kept :
    let _ := Blake3.identity
    let _ := SearchEngine.caseless
    let _ := Fastbloom.polynomial
    let _ := Clustering.inTurn
    ∃ shards, shardsOf (fun _ => (0 : ℕ)) ["rust book", "go book"] = .ok shards ∧
      NeverSkipped shards (fun _ _ => (0 : ℕ)) "book".toList := by
  intro _ _ _ _
  have hcovered : (shardsOf (fun _ => (0 : ℕ)) ["rust book", "go book"]).toOption.any
      fun shards => ∀ s ∈ shards, s.Covers (fun _ => (0 : ℕ)) (0 : ℕ) "book".toList := by
    decide +kernel
  obtain ⟨shards, hshards, hall⟩ := (Option.any_eq_true _ _).mp hcovered
  have hsplit := toOption_eq_some.mp hshards
  refine ⟨shards, hsplit, (never_skipped_iff hsplit _ _).mpr (.inr (.inr fun i s hs _ => ?_))⟩
  exact ⟨0, "book".toList, by decide, of_decide_eq_true hall s (List.mem_of_getElem? hs)⟩

/-- A shard with a hit is skipped: under keys that only the word of another shard happens to fit,
and under the old keys because the word is written in another case. -/
theorem matching_skipped :
    let _ := Blake3.identity
    let _ := SearchEngine.caseless
    let _ := Fastbloom.polynomial
    let _ := Clustering.inTurn
    (∃ shards, shardsOf (fun _ => (0 : ℕ)) ["rust language", "go book"] = .ok shards ∧
      ¬NeverSkipped shards (fun i _ => if i = 1 then (260 : ℕ) else (1 : ℕ)) "rust".toList) ∧
    ∃ shards, shardsOf (fun _ => (0 : ℕ)) ["rust language", "Rust book"] = .ok shards ∧
      ¬NeverSkipped shards (fun _ _ => (0 : ℕ)) "Rust".toList := by
  intro _ _ _ _
  exact ⟨exists_skipped (by decide +kernel), exists_skipped (by decide +kernel)⟩

end SynapseMemory.Sharding
