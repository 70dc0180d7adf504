import SynapseMemory.Outcome
import SynapseMemory.Text
import SynapseMemory.Transition

/-!
# The cache of registry answers

The model of `fetch_registry_latest`. The processes of a machine share a table of what the
registries said, one row for a package, and look at a row first. A row is as old as the time at
which its process began to look: that time is taken before the registry is asked, so a row may be
newer than it says and is never older.

The lookups of several processes run at once, and a slow one may write over the row of a faster one.
Whatever the order, an answer from the cache was fetched less than its time to live ago
(`registry_answers_fresh`).

The clock does not go back, and answers of the network are choices of the run.
-/

namespace SynapseMemory

namespace Fresh

open Text
open Outcome (asI64)

/-! ## Addresses -/

/-- A digit of `{:02X}`. -/
def hexDigit (n : ℕ) : Char := if n < 10 then Char.ofNat (n + 48) else Char.ofNat (n + 55)

/-- The bytes that stay, besides letters and digits. -/
def keptBytes (keepSlashAt : Bool) : Text :=
  "-._~".toList ++ if keepSlashAt then "/@".toList else []

/-- `percent_encode` -/
def percentEncode (input : Text) (keepSlashAt : Bool) : Text :=
  (asBytes input).flatMap fun b =>
    let c := Char.ofNat b.toNat
    if b < 128 && (c.isAlphanum || c ∈ keptBytes keepSlashAt) then [c]
    else ['%', hexDigit (b.toNat / 16), hexDigit (b.toNat % 16)]

/-- `registry_url` -/
def registryUrl (ecosystem name : Text) : Text :=
  if ecosystem = "crates".toList then
    "https://crates.io/api/v1/crates/".toList ++ percentEncode name false
  else if ecosystem = "npm".toList then
    "https://registry.npmjs.org/".toList ++ percentEncode name false ++ "/latest".toList
  else if ecosystem = "pypi".toList then
    "https://pypi.org/pypi/".toList ++ percentEncode name false ++ "/json".toList
  else []

/-- `docs_url`, with no version. -/
def docsUrl (ecosystem name : Text) : Option Text :=
  if ecosystem = "crates".toList then
    some ("https://docs.rs/".toList ++ name ++ "/latest/".toList)
  else if ecosystem = "npm".toList then
    some ("https://www.npmjs.com/package/".toList ++ percentEncode name true)
  else if ecosystem = "pypi".toList then
    some ("https://pypi.org/project/".toList ++ percentEncode name false ++ "/".toList)
  else none

/-! ## The table -/

/-- `Dependency` -/
structure Dependency where
  ecosystem : Text
  name : Text
  deriving DecidableEq

/-- `FreshOptions` -/
structure FreshOptions where
  ttlSec : ℕ
  negativeTtlSec : ℕ

/-- `RegistryInfo` -/
structure RegistryInfo where
  latest : Option Text
  source : Text
  docs : Option Text
  cached : Bool
  deriving DecidableEq

/-- A row of `registry_cache`. When it was fetched is for the statements. -/
structure Row where
  latest : Option Text
  source : Text
  docs : Option Text
  ts : ℤ
  fetched : ℕ

/-- The key of a row. -/
def Dependency.key (dep : Dependency) : Text × Text :=
  (dep.ecosystem, toAsciiLowercase dep.name)

/-- How long an answer is good, which depends on whether it has a version. -/
def FreshOptions.ttl (opts : FreshOptions) (latest : Option Text) : ℕ :=
  if latest.isSome then opts.ttlSec else opts.negativeTtlSec

/-- `ts.max(0) as u64` -/
def Row.time (row : Row) : ℕ := (max row.ts 0).toNat

/-- `FreshCache::get`, with the row that there is. -/
def Row.get (row : Row) (opts : FreshOptions) (now : ℕ) (docs : Option Text) :
    Option RegistryInfo :=
  if now - row.time < opts.ttl row.latest then
    some ⟨row.latest, row.source, row.docs.or docs, true⟩
  else none

/-- `fetch_registry_uncached` -/
def fetchUncached (dep : Dependency) (latest : Option Text) : RegistryInfo :=
  ⟨latest, registryUrl dep.ecosystem dep.name, docsUrl dep.ecosystem dep.name, false⟩

/-! ## Lookups at the same time -/

/-- A lookup, with the time at which it began. -/
structure Lookup where
  dep : Dependency
  opts : FreshOptions
  now : ℕ

/-- What a lookup answered, and when that was fetched. -/
structure Answer where
  lookup : Lookup
  info : RegistryInfo
  fetched : ℕ

/-- Where `fetch_registry_latest` stands. -/
inductive Proc where
  | idle
  | asked (lookup : Lookup)
  | missed (lookup : Lookup)
  | fetched (answer : Answer)

/-- The clock, the cache, and where each process is. -/
structure State where
  clock : ℕ
  rows : Text × Text → Option Row
  procs : ℕ → Proc
  answers : List Answer

/-- What happens next. -/
inductive Action where
  | tick (seconds : ℕ)
  | start (p : ℕ) (dep : Dependency) (opts : FreshOptions)
  /-- Without a cache, or with an error of the database, there is no row. -/
  | get (p : ℕ) (ok : Bool)
  | fetch (p : ℕ) (latest : Option Text)
  | put (p : ℕ) (ok : Bool)

/-- Nothing is cached, and no process has asked. -/
def State.init (clock : ℕ) : State := ⟨clock, fun _ => none, fun _ => .idle, []⟩

/-- `FreshCache::put` -/
def Answer.row (a : Answer) : Row :=
  ⟨a.info.latest, a.info.source, a.info.docs, asI64 a.lookup.now, a.fetched⟩

/-- The row that is found. -/
def State.find (s : State) (key : Text × Text) (ok : Bool) : Option Row :=
  if ok then s.rows key else none

/-- The table after a row was written, or was not. -/
def State.stored (s : State) (a : Answer) (ok : Bool) : Text × Text → Option Row :=
  if ok then Function.update s.rows a.lookup.dep.key (some a.row) else s.rows

/-- One step of the clock or of a process. -/
def step (s : State) : Action → Option State
  | .tick seconds => some { s with clock := s.clock + seconds }
  | .start p dep opts =>
    match s.procs p with
    | .idle => some { s with procs := Function.update s.procs p (.asked ⟨dep, opts, s.clock⟩) }
    | _ => none
  | .get p ok =>
    match s.procs p with
    | .asked l =>
      let hit := do
        let row ← s.find l.dep.key ok
        let info ← row.get l.opts l.now (docsUrl l.dep.ecosystem l.dep.name)
        some (Answer.mk l info row.fetched)
      match hit with
      | some answer =>
        some { s with
          procs := Function.update s.procs p .idle
          answers := answer :: s.answers }
      | none => some { s with procs := Function.update s.procs p (.missed l) }
    | _ => none
  | .fetch p latest =>
    match s.procs p with
    | .missed l =>
      some { s with
        procs := Function.update s.procs p (.fetched ⟨l, fetchUncached l.dep latest, s.clock⟩) }
    | _ => none
  | .put p ok =>
    match s.procs p with
    | .fetched a =>
      some { s with
        rows := s.stored a ok
        procs := Function.update s.procs p .idle
        answers := a :: s.answers }
    | _ => none

/-! ## Rows -/

theorem toNat_bmod_le (n m : ℕ) : (max (Int.bmod n m) 0).toNat ≤ n := by
  have hmod : (n : ℤ) % m ≤ n := by exact_mod_cast Nat.mod_le n m
  rw [Int.bmod_def]
  split <;> omega

theorem toNat_asI64_le (now : ℕ) : (max (asI64 now) 0).toNat ≤ now := by
  rw [asI64, BitVec.toInt_ofNat']
  exact toNat_bmod_le now (2 ^ 64)

/-- A row is as old as its lookup. -/
theorem Answer.time_row_le (a : Answer) : a.row.time ≤ a.lookup.now := by
  have hle := toNat_asI64_le a.lookup.now
  have htime : a.row.time = (max (asI64 a.lookup.now) 0).toNat := by
    rw [Row.time, Answer.row]
  rw [htime]
  exact hle

/-- The package of an answer, with the letters of its name in one case or another. -/
def From (ecosystem name : Text) (source : Text) (docs : Option Text) : Prop :=
  ∃ spelled, toAsciiLowercase spelled = toAsciiLowercase name ∧
    source = registryUrl ecosystem spelled ∧ docs = docsUrl ecosystem spelled

/-- A row is not older than it says. -/
structure Row.Sound (clock : ℕ) (key : Text × Text) (row : Row) : Prop where
  time_le : row.time ≤ row.fetched
  fetched_le : row.fetched ≤ clock
  origin : ∃ spelled, toAsciiLowercase spelled = key.2 ∧ row.source = registryUrl key.1 spelled ∧
    row.docs = docsUrl key.1 spelled

/-- Whether there is an address does not depend on the name. -/
theorem docsUrl_or (ecosystem name name' : Text) :
    (docsUrl ecosystem name).or (docsUrl ecosystem name') = docsUrl ecosystem name := by
  rw [docsUrl, docsUrl]
  split_ifs <;> rfl

/-- What an answer is. -/
structure Answer.Sound (clock : ℕ) (a : Answer) : Prop where
  fetched_le : a.fetched ≤ clock
  fetched : a.info.cached = false → a.lookup.now ≤ a.fetched ∧
    a.info = fetchUncached a.lookup.dep a.info.latest
  cached : a.info.cached = true → a.lookup.now < a.fetched + a.lookup.opts.ttl a.info.latest ∧
    From a.lookup.dep.ecosystem a.lookup.dep.name a.info.source a.info.docs

theorem Row.Sound.mono {clock clock' : ℕ} {key : Text × Text} {row : Row} (h : row.Sound clock key)
    (hle : clock ≤ clock') : row.Sound clock' key :=
  ⟨h.time_le, h.fetched_le.trans hle, h.origin⟩

theorem Answer.Sound.mono {clock clock' : ℕ} {a : Answer} (h : a.Sound clock)
    (hle : clock ≤ clock') : a.Sound clock' :=
  ⟨h.fetched_le.trans hle, h.fetched, h.cached⟩

/-- An answer from a row. -/
theorem Row.Sound.answer {clock : ℕ} {l : Lookup} {row : Row} (h : row.Sound clock l.dep.key)
    {info : RegistryInfo}
    (hget : row.get l.opts l.now (docsUrl l.dep.ecosystem l.dep.name) = some info) :
    (Answer.mk l info row.fetched).Sound clock := by
  rw [Row.get] at hget
  split at hget
  next hfresh =>
    obtain rfl := Option.some_inj.mp hget
    obtain ⟨spelled, hspelled, hsource, hdocs⟩ := h.origin
    have htime := h.time_le
    refine ⟨h.fetched_le, nofun, fun _ => ⟨?_, spelled, hspelled, hsource, ?_⟩⟩
    · dsimp only
      omega
    · rw [hdocs]
      exact docsUrl_or _ _ _
  next => cases hget

/-- A row for an answer. -/
theorem Answer.Sound.row {clock : ℕ} {a : Answer} (h : a.Sound clock)
    (hfetched : a.info.cached = false) : a.row.Sound clock a.lookup.dep.key := by
  obtain ⟨hnow, hinfo⟩ := h.fetched hfetched
  refine ⟨a.time_row_le.trans hnow, h.fetched_le, a.lookup.dep.name, rfl, ?_, ?_⟩
  · rw [Answer.row, hinfo]
    rfl
  · rw [Answer.row, hinfo]
    rfl

/-! ## Runs -/

/-- Where a lookup stands. -/
def Proc.Sound (clock : ℕ) : Proc → Prop
  | .idle => True
  | .asked l | .missed l => l.now ≤ clock
  | .fetched a => a.info.cached = false ∧ a.Sound clock

/-- No row, no process and no answer knows more than the registry said by now. -/
structure State.Sound (s : State) : Prop where
  rows : ∀ key, ∀ row ∈ s.rows key, row.Sound s.clock key
  procs : ∀ p, (s.procs p).Sound s.clock
  answers : ∀ a ∈ s.answers, a.Sound s.clock

theorem Proc.Sound.mono {clock clock' : ℕ} {proc : Proc} (h : proc.Sound clock)
    (hle : clock ≤ clock') : proc.Sound clock' := by
  cases proc with
  | idle => trivial
  | asked l => exact Nat.le_trans h hle
  | missed l => exact Nat.le_trans h hle
  | fetched a => exact ⟨h.1, h.2.mono hle⟩

/-- What holds of each process. -/
theorem State.Sound.proc {s : State} (h : s.Sound) {p : ℕ} {proc : Proc} (hp : s.procs p = proc) :
    proc.Sound s.clock := by
  have hproc := h.procs p
  rwa [hp] at hproc

/-- A row that is found is sound. -/
theorem State.Sound.find {s : State} (h : s.Sound) {key : Text × Text} {ok : Bool} {row : Row}
    (hrow : s.find key ok = some row) : row.Sound s.clock key := by
  rw [State.find] at hrow
  split at hrow
  · exact h.rows key row hrow
  · cases hrow

/-- A fetched answer is sound as a row. -/
theorem State.Sound.stored {s : State} (h : s.Sound) {a : Answer} (ha : a.Sound s.clock)
    (hfetched : a.info.cached = false) (ok : Bool) (key : Text × Text) :
    ∀ row ∈ s.stored a ok key, row.Sound s.clock key := by
  intro row hrow
  rw [State.stored] at hrow
  split at hrow
  · rcases eq_or_ne key a.lookup.dep.key with rfl | hkey
    · rw [Function.update_self] at hrow
      obtain rfl := Option.some_inj.mp hrow
      exact ha.row hfetched
    · rw [Function.update_of_ne hkey] at hrow
      exact h.rows key row hrow
  · exact h.rows key row hrow

/-- A process that goes on is sound, and so are the others. -/
theorem State.Sound.procs_update {s : State} (h : s.Sound) {p : ℕ} (proc : Proc)
    (hproc : proc.Sound s.clock) (q : ℕ) :
    (Function.update s.procs p proc q).Sound s.clock := by
  rcases eq_or_ne q p with rfl | hq
  · rwa [Function.update_self]
  · rw [Function.update_of_ne hq]
    exact h.procs q

/-- What one step preserves. -/
theorem State.Sound.step {s s' : State} {a : Action} (h : s.Sound) (hs : step s a = some s') :
    s'.Sound := by
  cases a with
  | tick seconds =>
    obtain rfl := Option.some_inj.mp hs
    have hle : s.clock ≤ s.clock + seconds := Nat.le_add_right _ _
    exact ⟨fun key row hrow => (h.rows key row hrow).mono hle, fun p => (h.procs p).mono hle,
      fun a ha => (h.answers a ha).mono hle⟩
  | start p dep opts =>
    rw [Fresh.step] at hs
    split at hs
    next =>
      obtain rfl := Option.some_inj.mp hs
      exact ⟨h.rows, h.procs_update (.asked ⟨dep, opts, s.clock⟩) (le_refl s.clock), h.answers⟩
    next => cases hs
  | get p ok =>
    rw [Fresh.step] at hs
    split at hs
    next l hp =>
      have hl : l.now ≤ s.clock := h.proc hp
      dsimp only at hs
      split at hs
      next answer hhit =>
        obtain rfl := Option.some_inj.mp hs
        obtain ⟨row, hrow, hhit⟩ := Option.bind_eq_some_iff.mp hhit
        obtain ⟨info, hinfo, hhit⟩ := Option.bind_eq_some_iff.mp hhit
        obtain rfl := Option.some_inj.mp hhit
        exact ⟨h.rows, h.procs_update .idle trivial, List.forall_mem_cons.mpr
          ⟨(h.find hrow).answer hinfo, h.answers⟩⟩
      next =>
        obtain rfl := Option.some_inj.mp hs
        exact ⟨h.rows, h.procs_update (.missed l) hl, h.answers⟩
    next => cases hs
  | fetch p latest =>
    rw [Fresh.step] at hs
    split at hs
    next l hp =>
      have hl : l.now ≤ s.clock := h.proc hp
      obtain rfl := Option.some_inj.mp hs
      exact ⟨h.rows, h.procs_update (.fetched _) ⟨rfl, le_rfl, fun _ => ⟨hl, rfl⟩, nofun⟩,
        h.answers⟩
    next => cases hs
  | put p ok =>
    rw [Fresh.step] at hs
    split at hs
    next a hp =>
      obtain ⟨hfetched, ha⟩ := h.proc hp
      obtain rfl := Option.some_inj.mp hs
      exact ⟨h.stored ha hfetched ok, h.procs_update .idle trivial,
        List.forall_mem_cons.mpr ⟨ha, h.answers⟩⟩
    next => cases hs

theorem sound_init (clock : ℕ) : (State.init clock).Sound :=
  ⟨fun _ _ h => (by cases h), fun _ => trivial, fun _ h => (by cases h)⟩

/-- **Answers are fresh.** What was fetched for a lookup was fetched after it began; what comes from
the cache was fetched less than the time to live before, for the same package. -/
theorem registry_answers_fresh {clock : ℕ} {as : List Action} {s : State}
    (hrun : Transition.run step (State.init clock) as = some s) : ∀ a ∈ s.answers,
      a.fetched ≤ s.clock ∧
      (a.info.cached = false → a.lookup.now ≤ a.fetched ∧
        a.info = fetchUncached a.lookup.dep a.info.latest) ∧
      (a.info.cached = true → a.lookup.now < a.fetched + a.lookup.opts.ttl a.info.latest ∧
        From a.lookup.dep.ecosystem a.lookup.dep.name a.info.source a.info.docs) := by
  have hsound : s.Sound :=
    Transition.run_preserves State.Sound (fun _ _ _ h hs => h.step hs) hrun (sound_init clock)
  intro a ha
  obtain ⟨hle, hfetched, hcached⟩ := hsound.answers a ha
  exact ⟨hle, hfetched, hcached⟩

/-! ## Two spellings of a package -/

/-- The second lookup comes 100 seconds after the answer to the first one was stored. -/
def twoSpellings : List Action :=
  [.start 0 ⟨"npm".toList, "React".toList⟩ ⟨21600, 60⟩, .get 0 true, .tick 2,
    .fetch 0 (some "19.0.0".toList), .put 0 true, .tick 100,
    .start 1 ⟨"npm".toList, "react".toList⟩ ⟨21600, 60⟩, .get 1 true]

/-- Two spellings of one name. The one that was asked again comes from the cache. -/
theorem registry_answers_fresh_twoSpellings : ∃ s,
    Transition.run step (State.init 1000) twoSpellings = some s ∧
    s.answers.map (fun a => (a.info.cached, a.fetched)) = [(true, 1002), (false, 1002)] ∧
    ∀ a ∈ s.answers, a.info.cached = true →
      a.lookup.now < a.fetched + a.lookup.opts.ttl a.info.latest := by
  have hrun : (Transition.run step (State.init 1000) twoSpellings).map
      (fun s => s.answers.map fun a => (a.info.cached, a.fetched)) =
        some [(true, 1002), (false, 1002)] := by
    decide +kernel
  obtain ⟨s, hs, hanswers⟩ := Option.map_eq_some_iff.mp hrun
  exact ⟨s, hs, hanswers, fun a ha hcached => ((registry_answers_fresh hs a ha).2.2 hcached).1⟩

end Fresh

end SynapseMemory
