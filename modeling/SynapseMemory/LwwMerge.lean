import SynapseMemory.Bytes
import SynapseMemory.Gossip
import SynapseMemory.LastWriter

/-!
# The merge of operation logs

The model of `merge_lww` of `synapse-core`. Two logs are read one after the other into a map that
has one operation for each document; an operation takes the place of the one that is there unless
that one is newer, by the timestamp and then by the operation's id. What is in the map at the end is
sorted by the id.

The id of an operation is the hash of its content, so equal ids stand for equal operations: all logs
are over one set of operations on which the id is injective. Then a merge has the leaders
(`LastWriter`) of what it was given, in the order of their ids. It depends on nothing else, and
replicas that exchange their logs converge (`Gossip`).
-/

namespace SynapseMemory.Sync

open LastWriter

/-- `[u8; 32]` -/
abbrev OpId : Type := Digest

/-- Arrays are compared byte by byte. -/
instance : LinearOrder OpId :=
  LinearOrder.lift' (fun d : Digest => d.bytes.map UInt8.toNat) fun _ _ h =>
    Digest.ext (List.map_injective_iff.mpr (fun _ _ => UInt8.toNat_inj.mp) h)

/-- `Op` -/
inductive Op where
  | put (docId : String) (blobHash : Digest) (ts : ℤ)
  | delete (docId : String) (ts : ℤ)
  | renameTitle (docId newTitle : String) (ts : ℤ)
  deriving DecidableEq

/-- The document that an operation is about. -/
def key : Op → String
  | .put docId _ _ => docId
  | .delete docId _ => docId
  | .renameTitle docId _ _ => docId

/-- The time of an operation. -/
def ts : Op → ℤ
  | .put _ _ ts => ts
  | .delete _ ts => ts
  | .renameTitle _ _ ts => ts

/-- A log of operations, each with its id. -/
abbrev Log : Type := List (OpId × Op)

/-- The map of the merge, by the document. -/
abbrev Winners : Type := AList fun _ : String => OpId × Op

/-- One turn of the loop. -/
def insertWinner (winners : Winners) (e : OpId × Op) : Winners :=
  match winners.lookup (key e.2) with
  | none => winners.insert (key e.2) e
  | some cur =>
    -- on a tie in both, the later one of the two is taken
    if ts cur.2 > ts e.2 ∨ ts cur.2 = ts e.2 ∧ cur.1 > e.1 then winners
    else winners.insert (key e.2) e

/-- The last operation of each document, of both logs. -/
def winners (local_ remote : Log) : Winners := (local_ ++ remote).foldl insertWinner ∅

/-- `into_values` -/
def values (w : Winners) : Log := w.entries.map Sigma.snd

/-- `sort_by_key` -/
def sortById (l : Log) : Log := l.mergeSort fun a b => a.1 ≤ b.1

/-- `merge_lww` -/
def mergeLww (local_ remote : Log) : Log := sortById (values (winners local_ remote))

/-! ## The winners lead -/

/-- The document of an entry. -/
def docOf (e : OpId × Op) : String := key e.2

/-- Operations are ordered by the timestamp, and then by the id. -/
def rank (e : OpId × Op) : ℤ ×ₗ OpId := toLex (ts e.2, e.1)

theorem rank_lt_iff {e f : OpId × Op} :
    rank e < rank f ↔ ts f.2 > ts e.2 ∨ ts f.2 = ts e.2 ∧ f.1 > e.1 := by
  rw [rank, rank, Prod.Lex.toLex_lt_toLex]
  exact or_congr Iff.rfl (and_congr_left fun _ => eq_comm)

/-- Where equal ids stand for equal operations, the rank tells operations apart. -/
theorem injOn_rank {U : Set (OpId × Op)} (hU : U.InjOn Prod.fst) : U.InjOn rank :=
  fun _ he _ hf h => hU he hf (congrArg (fun r => (ofLex r).2) h)

/-- The operations of a log. -/
def ops (l : Log) : Set (OpId × Op) := {e | e ∈ l}

theorem finite_ops (l : Log) : (ops l).Finite := l.finite_toSet

/-- The map has, for each document, the operation that leads it. -/
def Tracks (s : Set (OpId × Op)) (w : Winners) : Prop :=
  ∀ k e, w.lookup k = some e ↔ docOf e = k ∧ e ∈ leaders docOf rank s

/-- A document is looked up as before, after an operation on another one. -/
theorem lookup_insertWinner_ne {w : Winners} {x : OpId × Op} {k : String} (hk : k ≠ docOf x) :
    (insertWinner w x).lookup k = w.lookup k := by
  rw [insertWinner, ← docOf]
  split
  · exact AList.lookup_insert_ne hk
  · split
    · rfl
    · exact AList.lookup_insert_ne hk

section Turn

variable {s : Set (OpId × Op)} {w : Winners} (hw : Tracks s w) {x : OpId × Op}

include hw

/-- The first operation on a document leads it. -/
theorem Tracks.lookup_new (hs : s.Finite) (hnone : w.lookup (docOf x) = none) (e : OpId × Op) :
    (insertWinner w x).lookup (docOf x) = some e ↔
      docOf e = docOf x ∧ e ∈ leaders docOf rank (insert x s) := by
  have hnew : ∀ y ∈ s, docOf y ≠ docOf x := by
    intro y hy hdoc
    have hcov : Covered docOf rank s (leaders docOf rank s) := covered_leaders hs
    obtain ⟨z, hz, hzdoc, -⟩ := hcov y hy
    have hsome := (hw (docOf x) z).mpr ⟨hzdoc.trans hdoc, hz⟩
    exact absurd (hnone.symm.trans hsome) nofun
  rw [insertWinner, ← docOf, hnone]
  simp only [AList.lookup_insert, Option.some.injEq]
  refine ⟨?_, ?_⟩
  · rintro rfl
    exact ⟨rfl, (leaders_insert_of_new hnew rfl).mpr rfl⟩
  · rintro ⟨hdoc, he⟩
    exact ((leaders_insert_of_new hnew hdoc).mp he).symm

/-- A later one leads it unless it ranks below the leader. -/
theorem Tracks.lookup_known (hinj : (insert x s).InjOn rank) {cur : OpId × Op}
    (hcur : w.lookup (docOf x) = some cur) (e : OpId × Op) :
    (insertWinner w x).lookup (docOf x) = some e ↔
      docOf e = docOf x ∧ e ∈ leaders docOf rank (insert x s) := by
  obtain ⟨hcurdoc, hcurlead⟩ := (hw _ _).mp hcur
  have honly : ∀ z, docOf z = docOf x → z ∈ leaders docOf rank s → z = cur := by
    intro z hz hzlead
    have hsome := (hw (docOf x) z).mpr ⟨hz, hzlead⟩
    exact Option.some.inj (hsome.symm.trans hcur)
  rw [insertWinner, ← docOf, hcur]
  simp only [← rank_lt_iff]
  by_cases hlt : rank x < rank cur
  · rw [if_pos hlt, hw]
    refine and_congr_right fun hdoc => ?_
    rw [leaders_insert_of_leader hcurlead hcurdoc hdoc]
    refine ⟨fun he => .inr ⟨he, ?_⟩, ?_⟩
    · rw [honly e hdoc he]
      exact hlt.le
    · rintro (⟨-, hle⟩ | ⟨he, -⟩)
      · exact absurd hlt (not_lt.mpr hle)
      · exact he
  · rw [if_neg hlt, AList.lookup_insert, Option.some.injEq]
    refine ⟨?_, ?_⟩
    · rintro rfl
      refine ⟨rfl, (leaders_insert_of_leader hcurlead hcurdoc rfl).mpr (.inl ⟨rfl, ?_⟩)⟩
      exact not_lt.mp hlt
    · rintro ⟨hdoc, he⟩
      rcases (leaders_insert_of_leader hcurlead hcurdoc hdoc).mp he with ⟨rfl, -⟩ | ⟨he, hle⟩
      · rfl
      · obtain rfl := honly e hdoc he
        exact hinj (.inl rfl) (.inr he.1) (le_antisymm hle (not_lt.mp hlt))

/-- One turn of the loop goes on tracking. -/
theorem Tracks.insertWinner (hs : s.Finite) (hinj : (insert x s).InjOn rank) :
    Tracks (insert x s) (insertWinner w x) := by
  intro k e
  by_cases hk : k = docOf x
  · subst hk
    cases hcur : w.lookup (docOf x) with
    | none => exact hw.lookup_new hs hcur e
    | some cur => exact hw.lookup_known hinj hcur e
  · rw [lookup_insertWinner_ne hk, hw]
    refine and_congr_right fun hdoc => ?_
    rw [leaders_insert_of_ne]
    rw [hdoc]
    exact hk

end Turn

/-- The loop keeps track of the last operations. -/
theorem tracks_foldl {U s : Set (OpId × Op)} (hinj : U.InjOn rank) {w : Winners} {l : Log}
    (hw : Tracks s w) (hs : s.Finite) (hsU : s ⊆ U) (hl : ops l ⊆ U) :
    Tracks (s ∪ ops l) (l.foldl insertWinner w) := by
  induction l generalizing s w with
  | nil =>
    have hnil : s ∪ ops [] = s := by simp [ops]
    rw [hnil]
    exact hw
  | cons x rest ih =>
    have hx : x ∈ U := hl List.mem_cons_self
    have hrest : ops rest ⊆ U := fun e he => hl (List.mem_cons_of_mem x he)
    have hcons : s ∪ ops (x :: rest) = insert x s ∪ ops rest := by
      ext e
      simp [ops, or_comm, or_assoc, or_left_comm]
    have hsub : insert x s ⊆ U := Set.insert_subset hx hsU
    rw [hcons, List.foldl_cons]
    exact ih (hw.insertWinner hs (hinj.mono hsub)) (hs.insert x) hsub hrest

/-- The winners are the last operations of both logs. -/
theorem tracks_winners {U : Set (OpId × Op)} (hinj : U.InjOn rank) {a b : Log} (ha : ops a ⊆ U)
    (hb : ops b ⊆ U) : Tracks (ops a ∪ ops b) (winners a b) := by
  have hempty : Tracks ∅ (∅ : Winners) := by
    intro k e
    simp [leaders]
  have happend : ops a ∪ ops b = ∅ ∪ ops (a ++ b) := by
    ext e
    simp [ops]
  rw [happend]
  refine tracks_foldl hinj hempty Set.finite_empty (Set.empty_subset U) fun e he => ?_
  rcases List.mem_append.mp he with he | he
  · exact ha he
  · exact hb he

/-! ## What a merge returns -/

/-- The log has exactly the leaders of the operations, each once, in the order of their ids. -/
structure Canon (s : Set (OpId × Op)) (l : Log) : Prop where
  sorted : l.Pairwise fun a b => a.1 < b.1
  mem_iff : ∀ e, e ∈ l ↔ e ∈ leaders docOf rank s

theorem Canon.ops_eq {s : Set (OpId × Op)} {l : Log} (h : Canon s l) :
    ops l = leaders docOf rank s :=
  Set.ext h.mem_iff

/-- Such a log is determined by the operations. -/
theorem Canon.unique {s : Set (OpId × Op)} {l l' : Log} (h : Canon s l) (h' : Canon s l') :
    l = l' := by
  have hne : ∀ {l : Log}, l.Pairwise (fun a b => a.1 < b.1) → l.Nodup :=
    fun hsorted => hsorted.imp fun hlt heq => absurd (congrArg Prod.fst heq) hlt.ne
  have hperm : l.Perm l' :=
    (List.perm_ext_iff_of_nodup (hne h.sorted) (hne h'.sorted)).mpr fun e =>
      (h.mem_iff e).trans (h'.mem_iff e).symm
  exact hperm.eq_of_pairwise (fun _ _ _ _ hlt hgt => absurd hgt (lt_asymm hlt)) h.sorted h'.sorted

/-- Sorting gives the same log in whatever order the map hands out its values. -/
theorem canon_sortById {U s : Set (OpId × Op)} (hU : U.InjOn Prod.fst) (hs : s ⊆ U) {w : Winners}
    (hw : Tracks s w) {vs : Log} (hvs : vs.Perm (values w)) : Canon s (sortById vs) := by
  have hmem : ∀ e, e ∈ vs ↔ e ∈ leaders docOf rank s := by
    intro e
    rw [hvs.mem_iff, values, List.mem_map]
    refine ⟨?_, fun he => ?_⟩
    · rintro ⟨⟨k, e⟩, hentry, rfl⟩
      exact ((hw k e).mp (AList.mem_lookup_iff.mpr hentry)).2
    · exact ⟨⟨docOf e, e⟩, AList.mem_lookup_iff.mp ((hw _ _).mpr ⟨rfl, he⟩), rfl⟩
  have hnodup : vs.Nodup := by
    rw [hvs.nodup_iff, values]
    refine List.Nodup.map_on ?_ (List.Nodup.of_map _ w.nodupKeys)
    rintro ⟨k, e⟩ he ⟨k', e'⟩ he' (rfl : e = e')
    obtain ⟨rfl, -⟩ := (hw k e).mp (AList.mem_lookup_iff.mpr he)
    obtain ⟨rfl, -⟩ := (hw k' e).mp (AList.mem_lookup_iff.mpr he')
    rfl
  have hperm : (sortById vs).Perm vs := List.mergeSort_perm _ _
  refine ⟨?_, fun e => hperm.mem_iff.trans (hmem e)⟩
  have hsorted : (sortById vs).Pairwise fun a b => decide (a.1 ≤ b.1) = true := by
    apply List.pairwise_mergeSort
    · intro a b c hab hbc
      exact decide_eq_true ((of_decide_eq_true hab).trans (of_decide_eq_true hbc))
    · intro a b
      rw [Bool.or_eq_true, decide_eq_true_eq, decide_eq_true_eq]
      exact le_total a.1 b.1
  have hdistinct : (sortById vs).Pairwise (· ≠ ·) := hperm.nodup_iff.mpr hnodup
  refine (hsorted.and hdistinct).imp_of_mem fun ha hb hab =>
    lt_of_le_of_ne (of_decide_eq_true hab.1) fun hid => ?_
  -- equal ids would be equal operations
  have hin : ∀ {e}, e ∈ sortById vs → e ∈ U :=
    fun he => hs (leaders_subset ((hmem _).mp (hperm.mem_iff.mp he)))
  exact hab.2 (hU (hin ha) (hin hb) hid)

/-- The operations of the log are in the set. -/
def Over (U : Set (OpId × Op)) (l : Log) : Prop := ops l ⊆ U

section Merge

variable {U : Set (OpId × Op)} (hU : U.InjOn Prod.fst)

include hU

/-- Merging gives the canonical log of both. -/
theorem canon_mergeLww {a b : Log} (ha : Over U a) (hb : Over U b) :
    Canon (ops a ∪ ops b) (mergeLww a b) :=
  canon_sortById hU (Set.union_subset ha hb) (tracks_winners (injOn_rank hU) ha hb)
    (List.Perm.refl _)

theorem over_mergeLww {a b : Log} (ha : Over U a) (hb : Over U b) : Over U (mergeLww a b) := by
  rw [Over, (canon_mergeLww hU ha hb).ops_eq]
  exact leaders_subset.trans (Set.union_subset ha hb)

/-- The order of the two logs does not matter. -/
theorem mergeLww_comm {a b : Log} (ha : Over U a) (hb : Over U b) :
    mergeLww a b = mergeLww b a := by
  have hba := canon_mergeLww hU hb ha
  rw [Set.union_comm] at hba
  exact (canon_mergeLww hU ha hb).unique hba

/-! ## Merging again -/

/-- The log has nothing but operations of the set, and all that lead it. -/
structure Holds (U s : Set (OpId × Op)) (l : Log) : Prop where
  finite : s.Finite
  subset_univ : s ⊆ U
  leaders_subset : leaders docOf rank s ⊆ ops l
  subset : ops l ⊆ s

omit hU in
theorem Holds.of_over {l : Log} (hl : Over U l) : Holds U (ops l) l :=
  ⟨finite_ops l, hl, LastWriter.leaders_subset, Set.Subset.refl _⟩

omit hU in
theorem Holds.of_canon {s : Set (OpId × Op)} {l : Log} (hs : s.Finite) (hsU : s ⊆ U)
    (h : Canon s l) : Holds U s l :=
  ⟨hs, hsU, h.ops_eq.symm.subset, h.ops_eq.trans_subset LastWriter.leaders_subset⟩

/-- What was left out of the two logs before does not change what a merge returns. -/
theorem Holds.merge {s t : Set (OpId × Op)} {a b : Log} (ha : Holds U s a) (hb : Holds U t b) :
    Canon (s ∪ t) (mergeLww a b) := by
  have hcanon := canon_mergeLww hU (ha.subset.trans ha.subset_univ) (hb.subset.trans hb.subset_univ)
  refine ⟨hcanon.sorted, fun e => ?_⟩
  rw [hcanon.mem_iff, leaders_union_of_between ha.finite ha.leaders_subset ha.subset,
    Set.union_comm s, leaders_union_of_between hb.finite hb.leaders_subset hb.subset,
    Set.union_comm t]

theorem mergeLww_assoc {a b c : Log} (ha : Over U a) (hb : Over U b) (hc : Over U c) :
    mergeLww (mergeLww a b) c = mergeLww a (mergeLww b c) := by
  have hfirst : Holds U (ops a ∪ ops b) (mergeLww a b) :=
    .of_canon ((finite_ops a).union (finite_ops b)) (Set.union_subset ha hb)
      (canon_mergeLww hU ha hb)
  have hlast : Holds U (ops b ∪ ops c) (mergeLww b c) :=
    .of_canon ((finite_ops b).union (finite_ops c)) (Set.union_subset hb hc)
      (canon_mergeLww hU hb hc)
  have hleft := hfirst.merge hU (.of_over hc)
  rw [Set.union_assoc] at hleft
  exact hleft.unique (Holds.merge hU (.of_over ha) hlast)

/-- The first log is the second one, or went into it by one merge or by several. -/
inductive WentInto (U : Set (OpId × Op)) (l : Log) : Log → Prop
  | refl : WentInto U l l
  | first {a b : Log} : WentInto U l a → Over U b → WentInto U l (mergeLww a b)
  | second {a b : Log} : Over U a → WentInto U l b → WentInto U l (mergeLww a b)

theorem WentInto.stays_over {l m : Log} (h : WentInto U l m) (hl : Over U l) : Over U m := by
  induction h with
  | refl => exact hl
  | first _ hb ih => exact over_mergeLww hU ih hb
  | second ha _ ih => exact over_mergeLww hU ha ih

/-- A merge covers what goes into it. -/
theorem covered_mergeLww {a b : Log} (ha : Over U a) (hb : Over U b) :
    Covered docOf rank (ops a ∪ ops b) (ops (mergeLww a b)) := by
  rw [(canon_mergeLww hU ha hb).ops_eq]
  exact covered_leaders ((finite_ops a).union (finite_ops b))

theorem WentInto.covered {l m : Log} (h : WentInto U l m) (hl : Over U l) :
    Covered docOf rank (ops l) (ops m) := by
  induction h with
  | refl => exact Covered.of_subset (Set.Subset.refl _)
  | first h hb ih =>
    have hcov := covered_mergeLww hU (h.stays_over hU hl) hb
    exact ih.trans ((Covered.of_subset Set.subset_union_left).trans hcov)
  | second ha h ih =>
    have hcov := covered_mergeLww hU ha (h.stays_over hU hl)
    exact ih.trans ((Covered.of_subset Set.subset_union_right).trans hcov)

/-- A log that went into a merge adds nothing to it. -/
theorem merge_absorbs {a b l : Log} (ha : Over U a) (hb : Over U b) (hl : Over U l)
    (h : WentInto U l (mergeLww a b)) : mergeLww (mergeLww a b) l = mergeLww a b := by
  have hcanon := canon_mergeLww hU ha hb
  have hs : ops a ∪ ops b ⊆ U := Set.union_subset ha hb
  have hfin : (ops a ∪ ops b).Finite := (finite_ops a).union (finite_ops b)
  have hagain := Holds.merge hU (.of_canon hfin hs hcanon) (.of_over hl)
  have hcov : Covered docOf rank (ops l) (ops a ∪ ops b) := by
    refine (h.covered hU hl).trans (Covered.of_subset ?_)
    exact hcanon.ops_eq.trans_subset leaders_subset
  refine Canon.unique ⟨hagain.sorted, fun e => ?_⟩ hcanon
  rw [hagain.mem_iff, leaders_union_of_covered _ hcov]
  exact (injOn_rank hU).mono (Set.union_subset hs hl)

/-- Whatever the order in which the map hands out its values, the merge returns the same log. -/
theorem sortById_eq_mergeLww {a b : Log} (ha : Over U a) (hb : Over U b) {vs : Log}
    (hvs : vs.Perm (values (winners a b))) : sortById vs = mergeLww a b := by
  have htracks := tracks_winners (injOn_rank hU) ha hb
  have hcanon := canon_sortById hU (Set.union_subset ha hb) htracks hvs
  exact hcanon.unique (canon_mergeLww hU ha hb)

/-- A document that either log has an operation on has one in the merge. -/
theorem existsUnique_mergeLww {a b : Log} (ha : Over U a) (hb : Over U b) {f : OpId × Op}
    (hf : f ∈ ops a ∪ ops b) : ∃! e, e ∈ mergeLww a b ∧ docOf e = docOf f := by
  have hcanon := canon_mergeLww hU ha hb
  obtain ⟨e, he, hdoc, -⟩ := covered_mergeLww hU ha hb f hf
  refine ⟨e, ⟨he, hdoc⟩, ?_⟩
  rintro e' ⟨he', hdoc'⟩
  have hinj := (injOn_rank hU).mono (Set.union_subset ha hb)
  exact eq_of_mem_leaders hinj ((hcanon.mem_iff e').mp he') ((hcanon.mem_iff e).mp he)
    (hdoc'.trans hdoc.symm)

end Merge

/-- Logs are merged by `merge_lww`. -/
def merging {U : Set (OpId × Op)} (hU : U.InjOn Prod.fst) : Gossip.Merging Log (OpId × Op) where
  merge := mergeLww
  Holds := Holds U
  Canon s l := (s.Finite ∧ s ⊆ U) ∧ Canon s l
  holds_of_canon h := .of_canon h.1.1 h.1.2 h.2
  canon_merge ha hb := ⟨⟨ha.finite.union hb.finite, Set.union_subset ha.subset_univ hb.subset_univ⟩,
    ha.merge hU hb⟩
  canon_unique h h' := h.2.unique h'.2

/-- Over operations whose ids tell them apart, `merge_lww` is commutative and associative, absorbs
what went into it, and returns for each document the greatest operation, in the order of the ids.
Replicas that exchange logs end with the same one. -/
theorem mergeLww_converges {U : Set (OpId × Op)} (hU : U.InjOn Prod.fst) :
    (∀ a b, Over U a → Over U b → mergeLww a b = mergeLww b a) ∧
    (∀ a b c, Over U a → Over U b → Over U c →
      mergeLww (mergeLww a b) c = mergeLww a (mergeLww b c)) ∧
    (∀ a b l, Over U a → Over U b → Over U l → WentInto U l (mergeLww a b) →
      mergeLww (mergeLww a b) l = mergeLww a b ∧ mergeLww l (mergeLww a b) = mergeLww a b) ∧
    (∀ a b, Over U a → Over U b →
      (mergeLww a b).Pairwise (fun e f => e.1 < f.1) ∧
      (∀ e, e ∈ mergeLww a b ↔ (e ∈ a ∨ e ∈ b) ∧
        ∀ f, f ∈ a ∨ f ∈ b → docOf f = docOf e → rank f ≤ rank e) ∧
      ∀ f, f ∈ a ∨ f ∈ b → ∃! e, e ∈ mergeLww a b ∧ docOf e = docOf f) ∧
    ∀ (ι : Type) [DecidableEq ι] (init : ι → Log), (∀ i, Over U (init i)) →
      ∀ acts s, Transition.run (Gossip.step mergeLww) (Gossip.start init) acts = some s →
      ∀ i j, (∀ k, k ∈ (s.replica i).heard) → (∀ k, k ∈ (s.replica j).heard) →
        (s.replica i).log = (s.replica j).log := by
  refine ⟨fun a b ha hb => mergeLww_comm hU ha hb,
    fun a b c ha hb hc => mergeLww_assoc hU ha hb hc, ?_, ?_, ?_⟩
  · intro a b l ha hb hl h
    have habsorbs := merge_absorbs hU ha hb hl h
    exact ⟨habsorbs, (mergeLww_comm hU hl (over_mergeLww hU ha hb)).trans habsorbs⟩
  · intro a b ha hb
    have hcanon := canon_mergeLww hU ha hb
    exact ⟨hcanon.sorted, hcanon.mem_iff, fun f hf => existsUnique_mergeLww hU ha hb hf⟩
  · intro ι _ init hinit acts s hrun i j hi hj
    exact Gossip.converge (M := merging hU) (fun k => Holds.of_over (hinit k)) hrun hi hj

/-- Two operations on one document. -/
def putOld : OpId × Op := (Digest.zero, .put "x" Digest.zero 100)

/-- A later put of the same document. -/
def putNew : OpId × Op := (Digest.checksum [], .put "x" (Digest.checksum []) 200)

/-- Each of two replicas has one of them, and sends it to the other. -/
def exchanged : List (Gossip.Action (Fin 2)) :=
  [.send 0, .send 1, .receive 0 1 false, .receive 1 0 false]

/-- Two replicas send each other one operation, and end with the same log. -/
theorem putOld_putNew_converge :
    ∃ s : Gossip.State (Fin 2) Log,
      Transition.run (Gossip.step mergeLww) (Gossip.start ![[putOld], [putNew]]) exchanged =
          some s ∧
        (s.replica 0).log = (s.replica 1).log := by
  have hrun : ∃ s : Gossip.State (Fin 2) Log,
      Transition.run (Gossip.step mergeLww) (Gossip.start ![[putOld], [putNew]]) exchanged =
          some s ∧
        ∀ i k, k ∈ (s.replica i).heard := ⟨_, rfl, by decide⟩
  obtain ⟨s, hrun, hheard⟩ := hrun
  have hU : ({putOld, putNew} : Set (OpId × Op)).InjOn Prod.fst :=
    Set.injOn_pair.mpr (by decide +kernel)
  have hinit : ∀ i, Over {putOld, putNew} (![[putOld], [putNew]] i : Log) := by
    intro i e he
    fin_cases i
    · exact .inl (List.mem_singleton.mp he)
    · exact .inr (List.mem_singleton.mp he)
  exact ⟨s, hrun, (mergeLww_converges hU).2.2.2.2 (Fin 2) _ hinit _ s hrun 0 1 (hheard 0)
    (hheard 1)⟩

end SynapseMemory.Sync
