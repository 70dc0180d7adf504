import SynapseMemory.Transition

/-!
# Replicas that exchange what they hold

Any number of replicas, each with a log of its own at the start. A replica sends out a copy of its
log, and a copy that was sent can reach any replica, at any time, any number of times, or be merged
with another copy on the way. What a log has come to contain is a set of operations; a `Merging`
says that a merge takes the union of these sets, and that what a merge returns depends on nothing
but the union. Then two replicas that have heard of everybody hold the same log (`converge`).
-/

namespace Gossip

open Transition

/-- A merge, what a log holds, and when a log is the one that a merge returns. -/
structure Merging (L ω : Type*) where
  merge : L → L → L
  Holds : Set ω → L → Prop
  Canon : Set ω → L → Prop
  holds_of_canon : ∀ {s l}, Canon s l → Holds s l
  canon_merge : ∀ {s t a b}, Holds s a → Holds t b → Canon (s ∪ t) (merge a b)
  canon_unique : ∀ {s a b}, Canon s a → Canon s b → a = b

/-- A log, and the replicas whose first logs have gone into it. -/
structure Copy (ι L : Type*) where
  log : L
  heard : Finset ι

/-- The replicas, and the copies that were sent. -/
structure State (ι L : Type*) where
  replica : ι → Copy ι L
  sent : List (Copy ι L)

/-- What happens next: a replica sends, or a copy that was sent is merged. -/
inductive Action (ι : Type*) where
  | send (i : ι)
  /-- The replica merges a copy that was sent, as the first or the second argument. -/
  | receive (i : ι) (k : ℕ) (first : Bool)
  /-- Two copies that were sent are merged on the way. -/
  | relay (k m : ℕ)

variable {ι L ω : Type*}

/-- Each replica knows its own value, and nothing was sent. -/
def start (init : ι → L) : State ι L := ⟨fun i => ⟨init i, {i}⟩, []⟩

section Step

variable [DecidableEq ι]

/-- Merge two copies. -/
def Copy.merge (merge : L → L → L) (c d : Copy ι L) : Copy ι L :=
  ⟨merge c.log d.log, c.heard ∪ d.heard⟩

/-- One step. It is `none` for a copy that was not sent. -/
def step (merge : L → L → L) (s : State ι L) : Action ι → Option (State ι L)
  | .send i => some { s with sent := s.sent ++ [s.replica i] }
  | .receive i k first => do
    let c ← s.sent[k]?
    let r := s.replica i
    let r := if first then c.merge merge r else r.merge merge c
    some { s with replica := Function.update s.replica i r }
  | .relay k m => do
    let c ← s.sent[k]?
    let d ← s.sent[m]?
    some { s with sent := s.sent ++ [c.merge merge d] }

end Step

/-! ## What the copies are -/

variable (M : Merging L ω) (init : ι → L) (ops : ι → Set ω)

/-- The copy is a first log, or what a merge returns for all it has heard of. -/
def Sound (c : Copy ι L) : Prop :=
  (∃ k, c = ⟨init k, {k}⟩) ∨ M.Canon (⋃ k ∈ c.heard, ops k) c.log

/-- All copies are sound, and a replica has heard of itself. -/
structure Inv (s : State ι L) : Prop where
  replica : ∀ i, Sound M init ops (s.replica i)
  own : ∀ i, i ∈ (s.replica i).heard
  sent : ∀ c ∈ s.sent, Sound M init ops c

variable {M init ops}

theorem Sound.holds (hinit : ∀ i, M.Holds (ops i) (init i)) {c : Copy ι L}
    (hc : Sound M init ops c) : M.Holds (⋃ k ∈ c.heard, ops k) c.log := by
  rcases hc with ⟨k, rfl⟩ | hcanon
  · simpa using hinit k
  · exact M.holds_of_canon hcanon

/-- Of a log that has heard of two replicas, it is known which one it is. -/
theorem Sound.canon {c : Copy ι L} (hc : Sound M init ops c) {i j : ι} (hne : i ≠ j)
    (hi : i ∈ c.heard) (hj : j ∈ c.heard) : M.Canon (⋃ k ∈ c.heard, ops k) c.log := by
  rcases hc with ⟨k, rfl⟩ | hcanon
  · obtain rfl := Finset.mem_singleton.mp hi
    exact absurd (Finset.mem_singleton.mp hj).symm hne
  · exact hcanon

theorem inv_start : Inv M init ops (start init) where
  replica i := .inl ⟨i, rfl⟩
  own i := Finset.mem_singleton_self i
  sent := by simp [start]

/-! ## Runs -/

variable [DecidableEq ι]

theorem Sound.merge (hinit : ∀ i, M.Holds (ops i) (init i)) {c d : Copy ι L}
    (hc : Sound M init ops c) (hd : Sound M init ops d) :
    Sound M init ops (c.merge M.merge d) := by
  right
  have hcanon := M.canon_merge (hc.holds hinit) (hd.holds hinit)
  rwa [← Finset.set_biUnion_union] at hcanon

/-- A replica that receives a copy stays sound. -/
theorem Inv.receive (hinit : ∀ i, M.Holds (ops i) (init i)) {s : State ι L}
    (hinv : Inv M init ops s) {i : ι} {c : Copy ι L} (hc : c ∈ s.sent) (first : Bool) :
    let r := if first then c.merge M.merge (s.replica i) else (s.replica i).merge M.merge c
    Sound M init ops r ∧ i ∈ r.heard := by
  intro r
  have hown := hinv.own i
  cases first with
  | true =>
    refine ⟨(hinv.sent c hc).merge hinit (hinv.replica i), ?_⟩
    exact Finset.mem_union_right _ hown
  | false =>
    refine ⟨(hinv.replica i).merge hinit (hinv.sent c hc), ?_⟩
    exact Finset.mem_union_left _ hown

omit [DecidableEq ι] in
/-- A sound copy may be sent. -/
theorem Inv.send {s : State ι L} (hinv : Inv M init ops s) {c : Copy ι L}
    (hc : Sound M init ops c) : Inv M init ops { s with sent := s.sent ++ [c] } := by
  refine ⟨hinv.replica, hinv.own, fun d hd => ?_⟩
  rcases List.mem_append.mp hd with hd | hd
  · exact hinv.sent d hd
  · obtain rfl := List.mem_singleton.mp hd
    exact hc

/-- What one action preserves. -/
theorem Inv.step (hinit : ∀ i, M.Holds (ops i) (init i)) {s s' : State ι L} {a : Action ι}
    (hinv : Inv M init ops s) (h : step M.merge s a = some s') : Inv M init ops s' := by
  cases a with
  | send i =>
    obtain rfl := Option.some.inj h
    exact hinv.send (hinv.replica i)
  | receive i k first =>
    obtain ⟨c, hc, h⟩ := Option.bind_eq_some_iff.mp h
    obtain rfl := Option.some.inj h
    obtain ⟨hsound, hown⟩ := hinv.receive hinit (List.mem_of_getElem? hc) first (i := i)
    refine ⟨fun j => ?_, fun j => ?_, hinv.sent⟩
    · by_cases hj : j = i
      · subst hj
        simpa only [Function.update_self] using hsound
      · simpa only [Function.update_of_ne hj] using hinv.replica j
    · by_cases hj : j = i
      · subst hj
        simpa only [Function.update_self] using hown
      · simpa only [Function.update_of_ne hj] using hinv.own j
  | relay k m =>
    obtain ⟨c, hc, h⟩ := Option.bind_eq_some_iff.mp h
    obtain ⟨d, hd, h⟩ := Option.bind_eq_some_iff.mp h
    obtain rfl := Option.some.inj h
    have hcSound := hinv.sent c (List.mem_of_getElem? hc)
    have hdSound := hinv.sent d (List.mem_of_getElem? hd)
    exact hinv.send (hcSound.merge hinit hdSound)

/-- **Convergence.** After any run, two replicas that have heard of everybody hold the same log. -/
theorem converge (hinit : ∀ i, M.Holds (ops i) (init i)) {acts : List (Action ι)} {s : State ι L}
    (hrun : run (step M.merge) (start init) acts = some s) {i j : ι}
    (hi : ∀ k, k ∈ (s.replica i).heard) (hj : ∀ k, k ∈ (s.replica j).heard) :
    (s.replica i).log = (s.replica j).log := by
  have hinv : Inv M init ops s :=
    run_preserves _ (fun _ _ _ hinv h => hinv.step hinit h) hrun inv_start
  by_cases hne : i = j
  · rw [hne]
  · have hall : (s.replica i).heard = (s.replica j).heard :=
      Finset.ext fun k => iff_of_true (hi k) (hj k)
    have hcanon := (hinv.replica i).canon hne (hi i) (hi j)
    rw [hall] at hcanon
    exact M.canon_unique hcanon ((hinv.replica j).canon hne (hj i) (hj j))

end Gossip
