import SynapseMemory.Proto
import SynapseMemory.Transition

/-!
# The tiered vector index

The model of `TieredIndex` of `synapse-core` with the feature `spann-tier`. Documents go into memory
up to a threshold, and into the buffer of the disk tier from then on. A flush builds a SPANN index
of the documents in the buffer, puts it in the place of the index that was there, and empties the
buffer. So the documents of an earlier flush are gone after the next one that has something to
write: nothing is lost, and the length is right, exactly as long as no flush finds documents in the
buffer and an index in its place (`nothing_lost_iff`).

`MultiIndex` and `SpannIndex` are parameters. Of the second one it is known that it indexes the
vectors it was built from and counts them.
-/

namespace SynapseMemory.Tiered

open Proto Transition

/-- `SpannConfig` -/
structure SpannConfig where
  nClusters : ℕ
  dim : ℕ
  nDocs : ℕ
  maxIter : ℕ

/-- The indexes that the tiers are made of, and the sort by descending scores. -/
class Backends where
  MultiIndex : Type
  multiBuild : List (Int64 × List F32) → MultiIndex
  multiSearch : MultiIndex → List F32 → ℕ → List (Int64 × F32)
  SpannIndex : Type
  spannBuild : List (UInt64 × List F32) → SpannConfig → Except String SpannIndex
  spannSearch : SpannIndex → List F32 → ℕ → ℕ → List (UInt64 × F32)
  config : SpannIndex → SpannConfig
  indexed : SpannIndex → List (UInt64 × List F32)
  indexed_build : ∀ {docs cfg idx}, spannBuild docs cfg = .ok idx → (indexed idx).Perm docs
  nDocs_build : ∀ {docs cfg idx}, spannBuild docs cfg = .ok idx → (config idx).nDocs = docs.length
  sortByScore : List (Int64 × F32) → List (Int64 × F32)

/-- Indexes that are lists of vectors. -/
@[reducible] def Backends.lists : Backends where
  MultiIndex := List (Int64 × List F32)
  multiBuild := id
  multiSearch idx _ k := (idx.map fun d => (d.1, 0)).take k
  SpannIndex := List (UInt64 × List F32) × SpannConfig
  spannBuild docs cfg := .ok (docs, { cfg with nDocs := docs.length })
  spannSearch idx _ k _ := (idx.1.map fun d => (d.1, 0)).take k
  config := Prod.snd
  indexed := Prod.fst
  indexed_build h := by cases h; exact List.Perm.refl _
  nDocs_build h := by cases h; rfl
  sortByScore := id

section Tiers

variable [Backends]

/-! ## The disk tier -/

/-- `SpannBuffer` -/
structure SpannBuffer where
  docs : List (UInt64 × List F32)
  dim : ℕ
  index : Option Backends.SpannIndex

namespace SpannBuffer

/-- `new` -/
def new (dim : ℕ) : SpannBuffer := ⟨[], dim, none⟩

/-- `add` -/
def add (b : SpannBuffer) (docId : UInt64) (vec : List F32) : SpannBuffer :=
  { b with docs := b.docs ++ [(docId, vec)] }

/-- The index that a flush builds. -/
def built (b : SpannBuffer) : Except String Backends.SpannIndex :=
  let n := b.docs.length
  Backends.spannBuild b.docs ⟨max 1 (min (n / 100) 4096), b.dim, n, 50⟩

/-- `flush` -/
def flush (b : SpannBuffer) : SpannBuffer × Except String Unit :=
  if b.docs = [] then (b, .ok ())
  else
    match b.built with
    | .error e => (b, .error e)
    | .ok idx => ({ b with docs := [], index := some idx }, .ok ())

/-- `search` -/
def search (b : SpannBuffer) (query : List F32) (k : ℕ) : List (Int64 × F32) :=
  match b.index with
  | none => []
  | some idx => (Backends.spannSearch idx query k 8).map fun h => (h.1.toInt64, h.2)

/-- `len` -/
def len (b : SpannBuffer) : ℕ :=
  (b.index.map fun i => (Backends.config i).nDocs).getD 0 + b.docs.length

/-- The documents of the index and of the buffer. -/
def held (b : SpannBuffer) : List (UInt64 × List F32) :=
  (b.index.map Backends.indexed).getD [] ++ b.docs

/-- A flush has nothing to write, or nothing to overwrite, or fails. -/
def Spares (b : SpannBuffer) : Prop :=
  b.docs = [] ∨ b.index.isNone = true ∨ ∃ e, b.built = .error e

/-- What a flush does. -/
theorem flush_cases (b : SpannBuffer) :
    (b.flush.1 = b ∧ (b.docs = [] ∨ ∃ e, b.built = .error e)) ∨
      ∃ idx, b.docs ≠ [] ∧ b.built = .ok idx ∧
        b.flush.1 = { b with docs := [], index := some idx } := by
  rw [flush]
  split
  next hempty => exact .inl ⟨rfl, .inl hempty⟩
  next hdocs =>
    cases hbuilt : b.built with
    | error e => exact .inl ⟨rfl, .inr ⟨e, rfl⟩⟩
    | ok idx => exact .inr ⟨idx, hdocs, rfl, rfl⟩

/-- The index has vectors, and its count is right. -/
def Sound (b : SpannBuffer) : Prop :=
  ∀ idx ∈ b.index, (Backends.config idx).nDocs = (Backends.indexed idx).length ∧
    Backends.indexed idx ≠ []

theorem sound_flush {b : SpannBuffer} (h : b.Sound) : b.flush.1.Sound := by
  rcases b.flush_cases with ⟨hsame, -⟩ | ⟨idx, hdocs, hbuilt, hflush⟩
  · rwa [hsame]
  · rw [hflush]
    rintro _ ⟨⟩
    have hperm := Backends.indexed_build hbuilt
    refine ⟨(Backends.nDocs_build hbuilt).trans hperm.length_eq.symm, fun hnil => hdocs ?_⟩
    rw [hnil] at hperm
    exact List.nil_perm.mp hperm

/-- A sound buffer counts what it holds. -/
theorem len_eq {b : SpannBuffer} (h : b.Sound) : b.len = b.held.length := by
  rw [len, held, List.length_append]
  cases hidx : b.index with
  | none => rfl
  | some idx => rw [Option.map_some, Option.getD_some, (h idx hidx).1, Option.map_some,
      Option.getD_some]

/-- A flush that spares the index holds what the buffer held. -/
theorem held_flush_perm {b : SpannBuffer} (h : b.Spares) : b.flush.1.held.Perm b.held := by
  rcases b.flush_cases with ⟨hsame, -⟩ | ⟨idx, hdocs, hbuilt, hflush⟩
  · rw [hsame]
  · have hnone : b.index = none := by
      rcases h with hempty | hnone | ⟨e, he⟩
      · exact absurd hempty hdocs
      · exact Option.isNone_iff_eq_none.mp hnone
      · exact absurd (hbuilt.symm.trans he) nofun
    rw [hflush, held, held, hnone, List.append_nil]
    exact Backends.indexed_build hbuilt

/-- A flush that overwrites an index holds less. -/
theorem length_held_flush_lt {b : SpannBuffer} (hsound : b.Sound) (h : ¬b.Spares) :
    b.flush.1.held.length < b.held.length := by
  obtain ⟨hdocs, hsome, hbuilds⟩ := not_or.mp h |>.imp id not_or.mp
  rcases b.flush_cases with ⟨-, hempty | hfails⟩ | ⟨idx, -, hbuilt, hflush⟩
  · exact absurd hempty hdocs
  · exact absurd hfails hbuilds
  · obtain ⟨old, hold⟩ := Option.ne_none_iff_exists'.mp (mt Option.isNone_iff_eq_none.mpr hsome)
    have hpos := List.length_pos_of_ne_nil (hsound old hold).2
    have hnew := (Backends.indexed_build hbuilt).length_eq
    rw [hflush, held, held, hold, List.length_append, List.length_append]
    simp only [Option.map_some, Option.getD_some, List.length_nil]
    omega

end SpannBuffer

/-! ## Both tiers -/

/-- `TieredIndex` -/
structure TieredIndex where
  dim : ℕ
  threshold : ℕ
  memBuf : List (Int64 × List F32)
  mem : Option Backends.MultiIndex
  disk : SpannBuffer

namespace TieredIndex

/-- `new`, with the threshold that the environment gives. -/
def new (dim threshold : ℕ) : TieredIndex := ⟨dim, threshold, [], none, SpannBuffer.new dim⟩

/-- `mem_count` -/
def memCount (t : TieredIndex) : ℕ := t.memBuf.length

/-- `ensure_mem_built` -/
def ensureMemBuilt (t : TieredIndex) : TieredIndex :=
  if t.mem.isNone ∧ t.memBuf ≠ [] then { t with mem := some (Backends.multiBuild t.memBuf) } else t

/-- `add`, which panics on a vector of another dimension. -/
def add (t : TieredIndex) (docId : Int64) (vec : List F32) : Option TieredIndex :=
  if vec.length ≠ t.dim then none
  else if t.memCount < t.threshold then
    some { t with memBuf := t.memBuf ++ [(docId, vec)], mem := none }
  else
    let t := t.ensureMemBuilt
    some { t with disk := t.disk.add docId.toUInt64 vec }

/-- `flush_disk` -/
def flushDisk (t : TieredIndex) : TieredIndex × Except String Unit :=
  let (disk, result) := t.disk.flush
  ({ t with disk }, result)

/-- `search`, which builds and flushes first. -/
def search (t : TieredIndex) (query : List F32) (k : ℕ) : TieredIndex × List (Int64 × F32) :=
  let t := t.ensureMemBuilt
  let t := { t with disk := t.disk.flush.1 }
  let results := (t.mem.map fun m => Backends.multiSearch m query k).getD []
  (t, (Backends.sortByScore (results ++ t.disk.search query k)).take k)

/-- `len` -/
def len (t : TieredIndex) : ℕ := t.memCount + t.disk.len

/-- The documents of both tiers. -/
def held (t : TieredIndex) : List (Int64 × List F32) :=
  t.memBuf ++ t.disk.held.map fun d => (d.1.toInt64, d.2)

@[simp] theorem memBuf_ensureMemBuilt (t : TieredIndex) : t.ensureMemBuilt.memBuf = t.memBuf := by
  rw [ensureMemBuilt]
  split <;> rfl

@[simp] theorem disk_ensureMemBuilt (t : TieredIndex) : t.ensureMemBuilt.disk = t.disk := by
  rw [ensureMemBuilt]
  split <;> rfl

theorem search_memBuf (t : TieredIndex) (query : List F32) (k : ℕ) :
    (t.search query k).1.memBuf = t.memBuf :=
  t.memBuf_ensureMemBuilt

theorem search_disk (t : TieredIndex) (query : List F32) (k : ℕ) :
    (t.search query k).1.disk = t.disk.flush.1 := by
  change t.ensureMemBuilt.disk.flush.1 = _
  rw [disk_ensureMemBuilt]

/-- A document that is added is held in one of the tiers. -/
theorem add_cases {t t' : TieredIndex} {docId : Int64} {vec : List F32}
    (h : t.add docId vec = some t') :
    t'.held.Perm (t.held ++ [(docId, vec)]) ∧ t'.disk.index = t.disk.index := by
  rw [add] at h
  split at h
  · cases h
  · split at h
    · -- in memory, before what the disk tier holds
      cases h
      refine ⟨?_, rfl⟩
      rw [held, held, List.append_assoc, List.append_assoc]
      exact List.Perm.append_left _ List.perm_append_comm
    · cases h
      have hround : (docId.toUInt64).toInt64 = docId := Int64.toInt64_toUInt64 docId
      refine ⟨List.Perm.of_eq ?_, ?_⟩
      · simp [held, SpannBuffer.held, SpannBuffer.add, hround]
      · rw [disk_ensureMemBuilt, SpannBuffer.add]

theorem len_eq {t : TieredIndex} (h : t.disk.Sound) : t.len = t.held.length := by
  rw [len, SpannBuffer.len_eq h, held, List.length_append, List.length_map, memCount]

end TieredIndex

/-! ## Runs -/

/-- An index, and the documents that were added to it. -/
structure State where
  index : TieredIndex
  added : List (Int64 × List F32)

/-- A call on the index. -/
inductive Action where
  | add (docId : Int64) (vec : List F32)
  | search (query : List F32) (k : ℕ)
  | flushDisk

/-- A call, with the log of what was added. -/
def State.step (s : State) : Action → Option State
  | .add docId vec => (s.index.add docId vec).map fun t => ⟨t, s.added ++ [(docId, vec)]⟩
  | .search query k => some { s with index := (s.index.search query k).1 }
  | .flushDisk => some { s with index := s.index.flushDisk.1 }

/-- Every document that was added is held, and the length is the number of adds. -/
def State.NothingLost (s : State) : Prop :=
  (∀ d ∈ s.added, d ∈ s.index.held) ∧ s.index.len = s.added.length

/-- The call does not replace the index of the disk tier by one of the documents added since. -/
def SparesIndex (s : State) : Action → Prop
  | .add _ _ => True
  | _ => s.index.disk.Spares

/-- A flush, by itself or by a search, does this to the state. -/
theorem step_flush {s s' : State} {a : Action} (h : s.step a = some s') :
    (∃ docId vec, a = .add docId vec ∧ s'.added = s.added ++ [(docId, vec)] ∧
        s.index.add docId vec = some s'.index) ∨
      (SparesIndex s a = s.index.disk.Spares ∧ s'.added = s.added ∧
        s'.index.memBuf = s.index.memBuf ∧ s'.index.disk = s.index.disk.flush.1) := by
  cases a with
  | add docId vec =>
    obtain ⟨t, ht, rfl⟩ := Option.map_eq_some_iff.mp h
    exact .inl ⟨docId, vec, rfl, rfl, ht⟩
  | search query k =>
    obtain rfl := Option.some.inj h
    exact .inr ⟨rfl, rfl, s.index.search_memBuf query k, s.index.search_disk query k⟩
  | flushDisk =>
    obtain rfl := Option.some.inj h
    exact .inr ⟨rfl, rfl, rfl, rfl⟩

theorem sound_step {s s' : State} {a : Action} (hsound : s.index.disk.Sound)
    (h : s.step a = some s') : s'.index.disk.Sound := by
  rcases step_flush h with ⟨docId, vec, -, -, hadd⟩ | ⟨-, -, -, hdisk⟩
  · rw [SpannBuffer.Sound, (TieredIndex.add_cases hadd).2]
    exact hsound
  · rw [hdisk]
    exact SpannBuffer.sound_flush hsound

/-- A call loses nothing exactly if it spares the index. -/
theorem nothingLost_step_iff {s s' : State} {a : Action} (hsound : s.index.disk.Sound)
    (hs : s.NothingLost) (h : s.step a = some s') : s'.NothingLost ↔ SparesIndex s a := by
  have hsound' := sound_step hsound h
  obtain ⟨hheld, hlen⟩ := hs
  rw [TieredIndex.len_eq hsound] at hlen
  rw [State.NothingLost, TieredIndex.len_eq hsound']
  rcases step_flush h with ⟨docId, vec, rfl, hadded, hadd⟩ | ⟨hcond, hadded, hmem, hdisk⟩
  · have hperm := (TieredIndex.add_cases hadd).1
    refine iff_of_true ⟨fun d hd => ?_, ?_⟩ trivial
    · rw [hperm.mem_iff]
      rw [hadded] at hd
      exact List.mem_append.mpr ((List.mem_append.mp hd).imp (hheld d) id)
    · rw [hperm.length_eq, hadded, List.length_append, List.length_append, hlen]
  · rw [hcond, hadded]
    refine ⟨?_, ?_⟩
    · rintro ⟨-, hlen'⟩
      by_contra hspares
      have hlt := SpannBuffer.length_held_flush_lt hsound hspares
      simp only [TieredIndex.held, hmem, hdisk, List.length_append, List.length_map] at hlen hlen'
      omega
    · intro hspares
      have hperm : s'.index.held.Perm s.index.held := by
        rw [TieredIndex.held, TieredIndex.held, hmem, hdisk]
        exact ((SpannBuffer.held_flush_perm hspares).map _).append_left _
      exact ⟨fun d hd => hperm.mem_iff.mpr (hheld d hd), hperm.length_eq.trans hlen⟩

/-- In a run from a new index, every document that was added is in one of the tiers and the length
is the number of adds, at every moment, if and only if no flush with documents in its buffer finds
an index of earlier ones. -/
theorem nothing_lost_iff {dim threshold : ℕ} {as : List Action} {s : State}
    (hrun : run State.step ⟨TieredIndex.new dim threshold, []⟩ as = some s) :
    Along State.step State.NothingLost ⟨TieredIndex.new dim threshold, []⟩ as ↔
      Meets State.step SparesIndex ⟨TieredIndex.new dim threshold, []⟩ as := by
  have hnew : State.NothingLost ⟨TieredIndex.new dim threshold, []⟩ := ⟨nofun, rfl⟩
  exact along_iff_meets (fun s => s.index.disk.Sound) _
    (fun _ _ _ hsound h => sound_step hsound h)
    (fun _ _ _ hsound hs (_ : True) h => nothingLost_step_iff hsound hs h) hrun
    (Meets.of_forall fun _ _ => trivial) nofun hnew

end Tiers

/-- One document in memory and one on disk, and a search. -/
def flushedOnce : List Action := [.add 1 [0], .add 2 [0], .search [0] 10]

theorem flushedOnce_keeps :
    let _ := Backends.lists
    ∃ s, run State.step ⟨TieredIndex.new 1 1, []⟩ flushedOnce = some s ∧
      Along State.step State.NothingLost ⟨TieredIndex.new 1 1, []⟩ flushedOnce := by
  intro _
  refine ⟨_, rfl, (nothing_lost_iff rfl).mpr ⟨trivial, ?_⟩⟩
  rintro s ⟨⟩
  refine ⟨trivial, ?_⟩
  rintro s ⟨⟩
  -- the search flushes for the first time
  exact ⟨.inr (.inl rfl), fun _ _ => trivial⟩

/-- Two documents on disk, each with a search after it. -/
def flushedTwice : List Action := [.add 1 [0], .search [0] 10, .add 2 [0], .search [0] 10]

/-- The first document is in no tier, and the length is one. -/
theorem flushedTwice_loses :
    let _ := Backends.lists
    ∃ s, run State.step ⟨TieredIndex.new 1 0, []⟩ flushedTwice = some s ∧
      s.added = [(1, [0]), (2, [0])] ∧ s.index.held = [(2, [0])] ∧ s.index.len = 1 := by
  intro _
  exact ⟨_, rfl, rfl, rfl, rfl⟩

end SynapseMemory.Tiered
