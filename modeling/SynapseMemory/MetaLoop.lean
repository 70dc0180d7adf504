import SynapseMemory.Bytes
import SynapseMemory.Files
import SynapseMemory.Transition

/-!
# The router configuration on disk

`record_outcome` changes the configuration under the lock, and then `persist` takes a copy of it,
again under the lock, and saves the copy without it. A save writes a temporary file, whose name is
the same for all of them, and renames it. `tick` saves too, but keeps the lock until it is done.

So a save that begins while another one is going on can be overtaken by it: the older copy is
renamed last, or the two write into one file, or one of them finds no temporary file to rename. As
long as no copy is taken while a save is going on (`Alone`), each save ends with the configuration
that it began with, and whoever changed the configuration in the meantime has its own save before
it.

The statements of the file system are steps of their own: the opening of the temporary file, which
empties it, each piece that is written, and the rename. The TOML library is the parameter `Toml`.
-/

namespace SynapseMemory.Meta

open Transition Files

/-- `TaskShape` -/
inductive TaskShape where
  | bulkRead
  | code
  | synthesis
  | council
  | other (s : String)
  deriving DecidableEq

/-- `as_str` -/
def TaskShape.asStr : TaskShape → String
  | .bulkRead => "bulk_read"
  | .code => "code"
  | .synthesis => "synthesis"
  | .council => "council"
  | .other s => s

/-- `RoutingRule` -/
structure RoutingRule where
  taskShape : String
  model : String
  cli : String
  stdinStrategy : String
  minTokens : UInt64
  wins : UInt32
  losses : UInt32
  deriving DecidableEq

/-- `RouterConfig` -/
structure RouterConfig where
  rules : List RoutingRule
  fallbackModel : String
  fallbackCli : String
  compactionThreshold : UInt64
  updatedAt : ℤ
  deriving DecidableEq

/-- `RouterConfig::default` -/
def RouterConfig.default : RouterConfig where
  rules := [
    ⟨"bulk_read", "kimi", "kimi", "file", 100000, 1, 1⟩,
    ⟨"code", "codex", "codex", "pipe", 0, 1, 1⟩,
    ⟨"synthesis", "cascade", "claude", "pipe", 0, 1, 1⟩]
  fallbackModel := "cascade"
  fallbackCli := "claude"
  compactionThreshold := 120000
  updatedAt := 0

/-- The first rule for the shape and the model counts the outcome, and if there is none, there is
one from now on. -/
def recordRule (shape model : String) (success : Bool) : List RoutingRule → List RoutingRule
  | [] => [⟨shape, model, model, "pipe", 0, if success then 2 else 1, if success then 1 else 2⟩]
  | r :: rest =>
    if r.taskShape = shape && r.model = model then
      (if success then { r with wins := r.wins + 1 } else { r with losses := r.losses + 1 }) :: rest
    else r :: recordRule shape model success rest

/-- `record_outcome` -/
def RouterConfig.recordOutcome (c : RouterConfig) (shape : TaskShape) (model : String)
    (success : Bool) : RouterConfig :=
  { c with rules := recordRule shape.asStr model success c.rules }

/-- The functions of the `toml` crate that `load` and `persist` call. -/
class Toml where
  toString : RouterConfig → Except String Bytes
  fromStr : Bytes → Except String RouterConfig

/-- The text of the configuration reads as the configuration. -/
def Toml.RoundTrips [Toml] (c : RouterConfig) : Prop :=
  ∃ text, Toml.toString c = .ok text ∧ Toml.fromStr text = .ok c

/-- The file of the configuration, and the one with the extension `toml.tmp`. -/
inductive Name where
  | config
  | tmp
  deriving DecidableEq

/-- `RouterConfig::load` -/
def load [Toml] (disk : Disk Name) : Except String RouterConfig :=
  match disk.read .config with
  | none => .ok .default
  | some text => Toml.fromStr text

theorem load_of_read [Toml] {disk : Disk Name} {text : Bytes}
    (h : disk.read .config = some text) : load disk = Toml.fromStr text := by
  rw [load, h]

/-! ## The calls -/

/-- What a call comes to next. -/
inductive Phase where
  | idle
  /-- `record_outcome` has changed the configuration -/
  | recorded
  /-- a save has the text -/
  | copied (text : Bytes)
  /-- the temporary file is open, and this is what is left of the text -/
  | writing (file offset : ℕ) (rest : Bytes)
  deriving DecidableEq

/-- A save has its text and is not done. -/
def Phase.saving : Phase → Bool
  | .copied _ => true
  | .writing _ _ _ => true
  | _ => false

/-- The text of a save: what is in the file and what is left. -/
def Phase.text (disk : Disk Name) : Phase → Option Bytes
  | .copied text => some text
  | .writing file _ rest => some (disk.data file ++ rest)
  | _ => none

theorem Phase.saving_of_text {disk : Disk Name} {p : Phase} {text : Bytes}
    (h : p.text disk = some text) : p.saving = true := by
  cases p <;> first | rfl | cases h

/-- The disk, the configuration, and where each call is. -/
structure World (ι : Type) where
  disk : Disk Name
  config : RouterConfig
  /-- the `tick` that keeps the lock -/
  lock : Option ι
  call : ι → Phase

/-- What happens next. -/
inductive Act (ι : Type) where
  | record (i : ι) (shape : TaskShape) (model : String) (success : Bool) (now : ℤ)
  /-- `persist` clones the configuration and makes its text -/
  | copy (i : ι)
  /-- `tick` takes the lock, and makes the text -/
  | tick (i : ι) (now : ℤ)
  /-- `fs::write` opens the temporary file -/
  | openTmp (i : ι)
  /-- a piece of the text is written -/
  | write (i : ι) (length : ℕ)
  | rename (i : ι)

/-- A disk with a file of the configuration and a temporary file, if there are any. -/
def diskOf (file tmp : Option Bytes) : Disk Name where
  names
    | .config => file.map fun _ => 0
    | .tmp => tmp.map fun _ => 1
  data n := if n = 0 then file.getD [] else tmp.getD []
  next := 2

namespace World

variable {ι : Type}

/-- `MetaLoop::new`, with the configuration that it loads. -/
def start (ι : Type) (file tmp : Option Bytes) (config : RouterConfig) : World ι :=
  ⟨diskOf file tmp, config, none, fun _ => .idle⟩

/-- No call is going on. -/
def Quiet (w : World ι) : Prop := ∀ i, w.call i = .idle

instance [Fintype ι] (w : World ι) : Decidable w.Quiet :=
  inferInstanceAs (Decidable (∀ i, w.call i = .idle))

/-- The file reads as the configuration. -/
def Persisted [Toml] (w : World ι) : Prop := load w.disk = .ok w.config

variable [DecidableEq ι]

/-- A call comes to another phase. -/
def goTo (w : World ι) (i : ι) (p : Phase) : World ι :=
  { w with call := Function.update w.call i p }

/-- The call returns, and a `tick` gives the lock back. -/
def finish (w : World ι) (i : ι) : World ι :=
  { w.goTo i .idle with lock := if w.lock = some i then none else w.lock }

/-- `toml::to_string`, whose error ends the call. -/
def save [Toml] (w : World ι) (i : ι) : World ι :=
  match Toml.toString w.config with
  | .ok text => w.goTo i (.copied text)
  | .error _ => w.finish i

/-- What needs the lock waits for it. -/
def step [Toml] (w : World ι) : Act ι → Option (World ι)
  | .record i shape model success now =>
    if w.call i = .idle ∧ w.lock = none then
      let config := { w.config.recordOutcome shape model success with updatedAt := now }
      some ({ w with config }.goTo i .recorded)
    else none
  | .copy i => if w.call i = .recorded ∧ w.lock = none then some (w.save i) else none
  | .tick i now =>
    if w.call i = .idle ∧ w.lock = none then
      some ({ w with config := { w.config with updatedAt := now }, lock := some i }.save i)
    else none
  | .openTmp i =>
    match w.call i with
    | .copied text =>
      let (disk, file) := w.disk.openTruncated .tmp
      some ({ w with disk }.goTo i (.writing file 0 text))
    | _ => none
  | .write i length =>
    match w.call i with
    | .writing file offset rest =>
      if 0 < length ∧ length ≤ rest.length then
        let disk := w.disk.writeAt file offset (rest.take length)
        some ({ w with disk }.goTo i (.writing file (offset + length) (rest.drop length)))
      else none
    | _ => none
  | .rename i =>
    match w.call i with
    | .writing _ _ [] =>
      match w.disk.rename .tmp .config with
      | some disk => some ({ w with disk }.finish i)
      | none => some (w.finish i)
    | _ => none

/-- No call has the text of a copy that it has not renamed. -/
def NoSave (w : World ι) : Prop := ∀ j, (w.call j).saving = false

/-- A copy of the configuration is taken when no save is going on. -/
def Alone (w : World ι) : Act ι → Prop
  | .copy _ => w.NoSave
  | .tick _ _ => w.NoSave
  | _ => True

instance [Fintype ι] (w : World ι) : Decidable w.NoSave :=
  inferInstanceAs (Decidable (∀ j, (w.call j).saving = false))

instance [Fintype ι] (w : World ι) : (a : Act ι) → Decidable (Alone w a)
  | .copy _ => inferInstanceAs (Decidable w.NoSave)
  | .tick _ _ => inferInstanceAs (Decidable w.NoSave)
  | .record _ _ _ _ _ => inferInstanceAs (Decidable True)
  | .openTmp _ => inferInstanceAs (Decidable True)
  | .write _ _ => inferInstanceAs (Decidable True)
  | .rename _ => inferInstanceAs (Decidable True)

/-! ## Saves that are alone -/

@[simp] theorem call_goTo_self (w : World ι) (i : ι) (p : Phase) : (w.goTo i p).call i = p :=
  Function.update_self ..

theorem call_goTo_of_ne (w : World ι) {i j : ι} (hne : j ≠ i) (p : Phase) :
    (w.goTo i p).call j = w.call j :=
  Function.update_of_ne hne ..

/-- A save is the only one, its file is the temporary one, and if there is none, then the file is
that of the configuration, unless there is a change that its call has yet to copy. -/
structure Sound [Toml] (w : World ι) : Prop where
  separate : w.disk.Separate
  one : ∀ i j, (w.call i).saving = true → (w.call j).saving = true → i = j
  opened : ∀ i file offset rest, w.call i = .writing file offset rest →
    w.disk.names .tmp = some file ∧ offset = (w.disk.data file).length
  current : Toml.RoundTrips w.config → (∃ i, w.call i = .recorded) ∨
    (∃ i text, (w.call i).text w.disk = some text ∧ Toml.toString w.config = .ok text) ∨
    (w.NoSave ∧ w.Persisted)

variable [Toml]

omit [DecidableEq ι] [Toml] in
/-- A disk of two files. -/
theorem separate_diskOf (file tmp : Option Bytes) : (diskOf file tmp).Separate := by
  have hfile : ∀ a n, (diskOf file tmp).names a = some n → n = if a = .config then 0 else 1 := by
    intro a n ha
    cases a <;> obtain ⟨_, _, rfl⟩ := Option.map_eq_some_iff.mp ha <;> rfl
  refine ⟨fun a b n ha hb => ?_, fun a n ha => ?_⟩
  · have hnumber := (hfile a n ha).symm.trans (hfile b n hb)
    cases a <;> cases b <;> first | rfl | cases hnumber
  · rw [hfile a n ha]
    split
    · exact Nat.zero_lt_two
    · exact Nat.one_lt_two

omit [DecidableEq ι] in
theorem sound_start {file tmp : Option Bytes} {config : RouterConfig}
    (hload : load (diskOf file tmp) = .ok config) : (start ι file tmp config).Sound where
  separate := separate_diskOf file tmp
  one _ _ h := by cases h
  opened _ _ _ _ h := by cases h
  current _ := .inr (.inr ⟨fun _ => rfl, hload⟩)

/-- A save that begins when no other one is going on has the configuration as it is. -/
theorem sound_save {w : World ι} (hseparate : w.disk.Separate) (hnone : w.NoSave) (i : ι) :
    (w.save i).Sound := by
  have hidle : ∀ j, ((w.finish i).call j).saving = false := by
    intro j
    by_cases hji : j = i
    · subst hji
      simp [finish, goTo, Phase.saving]
    · simpa [finish, goTo, Function.update_of_ne hji] using hnone j
  rw [save]
  split
  next text htext =>
    have honly : ∀ j, ((w.goTo i (.copied text)).call j).saving = true → j = i := by
      intro j hj
      by_contra hji
      rw [call_goTo_of_ne w hji, hnone j] at hj
      cases hj
    refine ⟨hseparate, fun j k hj hk => (honly j hj).trans (honly k hk).symm, ?_, ?_⟩
    · intro j file offset rest hj
      obtain rfl := honly j (by rw [hj]; rfl)
      rw [call_goTo_self] at hj
      cases hj
    · exact fun _ => .inr (.inl ⟨i, text, by rw [call_goTo_self]; rfl, htext⟩)
  next e he =>
    refine ⟨hseparate, fun j _ hj => ?_, fun j file offset rest hj => ?_, fun hround => ?_⟩
    · rw [hidle j] at hj
      cases hj
    · have hj' := hidle j
      rw [hj] at hj'
      cases hj'
    · obtain ⟨text, htext, _⟩ := hround
      cases he.symm.trans htext

namespace Sound

variable {w : World ι} {i : ι}

/-- Recording an outcome keeps the world sound. -/
theorem record (h : w.Sound) (i : ι) (config : RouterConfig) :
    ({ w with config }.goTo i .recorded).Sound := by
  have hother : ∀ j p, ({ w with config }.goTo i .recorded).call j = p → p.saving = true →
      j ≠ i ∧ w.call j = p := by
    rintro j p rfl hp
    by_cases hji : j = i
    · subst hji
      simp [Phase.saving] at hp
    · exact ⟨hji, (call_goTo_of_ne { w with config } hji _).symm⟩
  refine ⟨h.separate, fun j k hj hk => ?_, fun j file offset rest hj => ?_, fun _ => ?_⟩
  · obtain ⟨_, hj'⟩ := hother j _ rfl hj
    obtain ⟨_, hk'⟩ := hother k _ rfl hk
    exact h.one j k (hj' ▸ hj) (hk' ▸ hk)
  · exact h.opened j file offset rest (hother j _ hj rfl).2
  · exact .inl ⟨i, call_goTo_self ..⟩

/-- The save goes on, on a disk where its text is the same and the configuration's file too. -/
theorem goOn (h : w.Sound) (hsaving : (w.call i).saving = true) {disk : Disk Name} {file offset : ℕ}
    {rest : Bytes} (hseparate : disk.Separate) (hname : disk.names .tmp = some file)
    (hoffset : offset = (disk.data file).length)
    (htext : (w.call i).text w.disk = some (disk.data file ++ rest)) :
    ({ w with disk }.goTo i (.writing file offset rest)).Sound := by
  have hother : ∀ j, j ≠ i → (w.call j).saving = false := by
    intro j hji
    by_contra hj
    exact hji (h.one j i (eq_true_of_ne_false hj) hsaving)
  have honly : ∀ j, (({ w with disk }.goTo i (.writing file offset rest)).call j).saving = true →
      j = i := by
    intro j hj
    by_contra hji
    rw [call_goTo_of_ne _ hji] at hj
    cases (hother j hji).symm.trans hj
  refine ⟨hseparate, fun j k hj hk => (honly j hj).trans (honly k hk).symm, ?_, fun hround => ?_⟩
  · intro j file' offset' rest' hj
    obtain rfl := honly j (by rw [hj]; rfl)
    rw [call_goTo_self] at hj
    cases hj
    exact ⟨hname, hoffset⟩
  · rcases h.current hround with ⟨j, hj⟩ | ⟨j, text, hj, htoString⟩ | ⟨hnone, _⟩
    · have hji : j ≠ i := by
        rintro rfl
        rw [hj] at hsaving
        cases hsaving
      exact .inl ⟨j, by rw [call_goTo_of_ne _ hji]; exact hj⟩
    · obtain rfl : j = i := h.one j i (Phase.saving_of_text hj) hsaving
      cases htext.symm.trans hj
      exact .inr (.inl ⟨j, _, by rw [call_goTo_self]; rfl, htoString⟩)
    · cases (hnone i).symm.trans hsaving

/-- Opening the temporary file keeps it sound. -/
theorem openTmp (h : w.Sound) {text : Bytes} (hcall : w.call i = .copied text) :
    ({ w with disk := (w.disk.openTruncated .tmp).1 }.goTo i
      (.writing (w.disk.openTruncated .tmp).2 0 text)).Sound := by
  have hdata := w.disk.data_openTruncated .tmp
  refine h.goOn (by rw [hcall]; rfl) (h.separate.openTruncated .tmp)
    (w.disk.names_openTruncated .tmp) ?_ ?_
  · rw [hdata]
    rfl
  · rw [hcall, hdata]
    rfl

/-- So does writing a piece. -/
theorem write (h : w.Sound) {file offset length : ℕ} {rest : Bytes}
    (hcall : w.call i = .writing file offset rest) (hlength : length ≤ rest.length) :
    ({ w with disk := w.disk.writeAt file offset (rest.take length) }.goTo i
      (.writing file (offset + length) (rest.drop length))).Sound := by
  obtain ⟨hname, hoffset⟩ := h.opened i file offset rest hcall
  have hdata : (w.disk.writeAt file offset (rest.take length)).data file =
      w.disk.data file ++ rest.take length := by
    rw [hoffset, ← splice_end]
    exact Function.update_self ..
  refine h.goOn (by rw [hcall]; rfl) (h.separate.writeAt ..) hname ?_ ?_
  · rw [hdata, List.length_append, List.length_take, Nat.min_eq_left hlength, hoffset]
  · rw [hdata, hcall, List.append_assoc, List.take_append_drop]
    rfl

/-- The save is done, and if it was of the configuration, then so is the file. -/
theorem rename (h : w.Sound) {file offset : ℕ} (hcall : w.call i = .writing file offset [])
    {disk : Disk Name} (hdisk : w.disk.rename .tmp .config = some disk) :
    ({ w with disk }.finish i).Sound := by
  have hsaving : (w.call i).saving = true := by rw [hcall]; rfl
  have hnone : ({ w with disk }.finish i).NoSave := by
    intro j
    by_cases hji : j = i
    · subst hji
      simp [finish, goTo, Phase.saving]
    · have hj : (w.call j).saving = false := by
        by_contra hj
        exact hji (h.one j i (eq_true_of_ne_false hj) hsaving)
      simpa [finish, goTo, Function.update_of_ne hji] using hj
  refine ⟨h.separate.rename hdisk, fun j _ hj => ?_, fun j _ _ _ hj => ?_, fun hround => ?_⟩
  · cases (hnone j).symm.trans hj
  · have hj' := hnone j
    rw [hj] at hj'
    cases hj'
  · rcases h.current hround with ⟨j, hj⟩ | ⟨j, text, hj, htoString⟩ | ⟨hnone', _⟩
    · have hji : j ≠ i := by
        rintro rfl
        rw [hj] at hsaving
        cases hsaving
      exact .inl ⟨j, by simpa [finish, goTo, Function.update_of_ne hji] using hj⟩
    · refine .inr (.inr ⟨hnone, ?_⟩)
      obtain rfl : j = i := h.one j i (Phase.saving_of_text hj) hsaving
      obtain ⟨text', htext', hfrom⟩ := hround
      obtain rfl : text = text' := Except.ok.inj (htoString.symm.trans htext')
      -- what is under the temporary name is the text of the configuration
      have hread : disk.read .config = some text := by
        rw [Disk.read_rename hdisk (by decide), Disk.read, (h.opened j file offset [] hcall).1,
          ← hj, hcall, Phase.text, List.append_nil]
        rfl
      exact (load_of_read hread).trans hfrom
    · cases (hnone' i).symm.trans hsaving

end Sound

/-- **A save that is alone.** Whatever a call does, if no copy is taken while a save is going on,
the next save ends with the configuration. -/
theorem Sound.step {w w' : World ι} {a : Act ι} (h : w.Sound) (halone : w.Alone a)
    (hstep : w.step a = some w') : w'.Sound := by
  cases a with
  | record i shape model success now =>
    rw [World.step] at hstep
    split at hstep
    · cases hstep
      exact h.record i _
    · cases hstep
  | copy i =>
    rw [World.step] at hstep
    split at hstep
    · cases hstep
      exact sound_save h.separate halone i
    · cases hstep
  | tick i now =>
    rw [World.step] at hstep
    split at hstep
    · cases hstep
      exact sound_save (w := ⟨w.disk, { w.config with updatedAt := now }, some i, w.call⟩)
        h.separate halone i
    · cases hstep
  | openTmp i =>
    rw [World.step] at hstep
    split at hstep
    next text hcall =>
      cases hstep
      exact h.openTmp hcall
    next => cases hstep
  | write i length =>
    rw [World.step] at hstep
    split at hstep
    next file offset rest hcall =>
      split at hstep
      next hlength =>
        cases hstep
        exact h.write hcall hlength.2
      next => cases hstep
    next => cases hstep
  | rename i =>
    rw [World.step] at hstep
    split at hstep
    next file offset hcall =>
      split at hstep
      next disk hdisk =>
        cases hstep
        exact h.rename hcall hdisk
      next hdisk =>
        rw [Disk.rename, (h.opened i file offset [] hcall).1] at hdisk
        cases hdisk
    next => cases hstep

/-- **When the file is the configuration.** In every run in which no copy is taken while a save is
going on, the file reads as the configuration whenever no call is going on. -/
theorem persisted_along {file tmp : Option Bytes} {config : RouterConfig}
    (hload : load (diskOf file tmp) = .ok config) {as : List (Act ι)}
    (hmeets : Meets step Alone (start ι file tmp config) as) :
    Along step (fun w => w.Quiet → Toml.RoundTrips w.config → w.Persisted)
      (start ι file tmp config) as := by
  have halong := hmeets.along Sound (fun _ _ _ h halone hstep => h.step halone hstep)
    (sound_start hload)
  intro pre hpre w hw hquiet hround
  rcases (halong pre hpre w hw).current hround with ⟨i, hi⟩ | ⟨i, text, hi, _⟩ | ⟨_, hpersisted⟩
  · rw [hquiet i] at hi
    cases hi
  · rw [hquiet i] at hi
    cases hi
  · exact hpersisted

end World

/-- The configuration after one outcome, and after two. -/
def afterOne : RouterConfig :=
  { RouterConfig.default.recordOutcome .code "codex" true with updatedAt := 100 }

/-- The configuration after a failure on top. -/
def afterTwo : RouterConfig :=
  { afterOne.recordOutcome .code "codex" false with updatedAt := 200 }

/-- The text of the default configuration with these counts for the code. -/
def tomlText (updatedAt wins losses : String) : Bytes :=
  Bytes.ofString ("fallback_model = \"cascade\"\nfallback_cli = \"claude\"\n" ++
    "compaction_threshold = 120000\nupdated_at = " ++ updatedAt ++ "\n\n" ++
    "[[rules]]\ntask_shape = \"bulk_read\"\nmodel = \"kimi\"\ncli = \"kimi\"\n" ++
    "stdin_strategy = \"file\"\nmin_tokens = 100000\nwins = 1\nlosses = 1\n\n" ++
    "[[rules]]\ntask_shape = \"code\"\nmodel = \"codex\"\ncli = \"codex\"\n" ++
    "stdin_strategy = \"pipe\"\nmin_tokens = 0\nwins = " ++ wins ++ "\nlosses = " ++ losses ++
    "\n\n[[rules]]\ntask_shape = \"synthesis\"\nmodel = \"cascade\"\ncli = \"claude\"\n" ++
    "stdin_strategy = \"pipe\"\nmin_tokens = 0\nwins = 1\nlosses = 1\n")

/-- The TOML of these two configurations. -/
@[reducible] def Toml.twoTexts : Toml where
  toString c :=
    if c = afterOne then .ok (tomlText "100" "2" "1")
    else if c = afterTwo then .ok (tomlText "200" "2" "2")
    else .error "another configuration"
  fromStr text :=
    if text = tomlText "100" "2" "1" then .ok afterOne
    else if text = tomlText "200" "2" "2" then .ok afterTwo
    else .error "another text"

/-- The steps of a save after its copy. -/
def savedBy (i : Bool) : List (Act Bool) := [.openTmp i, .write i 474, .rename i]

/-- Two calls whose saves follow each other. -/
def inTurn : List (Act Bool) :=
  [.record true .code "codex" true 100, .copy true] ++ savedBy true ++
    [.record false .code "codex" false 200, .copy false] ++ savedBy false

/-- One call after the other: the file has the configuration. -/
theorem inTurn_persisted :
    let _ := Toml.twoTexts
    ∃ w, run World.step (World.start Bool none none .default) inTurn = some w ∧ w.Quiet ∧
      w.config = afterTwo ∧ w.Persisted := by
  intro _
  have hmeets : Meets World.step World.Alone (World.start Bool none none .default) inTurn := by
    decide +kernel
  have hends : (run World.step (World.start Bool none none .default) inTurn).any
      fun w => w.Quiet ∧ w.config = afterTwo := by
    decide +kernel
  obtain ⟨w, hrun, hw⟩ := (Option.any_eq_true _ _).mp hends
  obtain ⟨hquiet, hconfig⟩ := of_decide_eq_true hw
  have hround : Toml.RoundTrips w.config := by
    rw [hconfig]
    exact ⟨tomlText "200" "2" "2", by decide +kernel, by decide +kernel⟩
  have hload : load (diskOf none none) = .ok .default := rfl
  exact ⟨w, hrun, hquiet, hconfig,
    World.persisted_along hload hmeets inTurn List.prefix_rfl w hrun hquiet hround⟩

/-- A copy that is renamed after a newer one. -/
def olderLast : List (Act Bool) :=
  [.record true .code "codex" true 100, .copy true, .record false .code "codex" false 200,
    .copy false] ++ savedBy false ++ savedBy true

/-- The older of two copies is saved last. -/
theorem olderLast_not_persisted :
    let _ := Toml.twoTexts
    ∃ w, run World.step (World.start Bool none none .default) olderLast = some w ∧ w.Quiet ∧
      load w.disk = .ok afterOne ∧ w.config = afterTwo ∧ Toml.RoundTrips w.config ∧
      ¬w.Persisted := by
  intro _
  have hends : (run World.step (World.start Bool none none .default) olderLast).any
      fun w => w.Quiet ∧ load w.disk = .ok afterOne ∧ w.config = afterTwo := by
    decide +kernel
  obtain ⟨w, hrun, hw⟩ := (Option.any_eq_true _ _).mp hends
  obtain ⟨hquiet, hload, hconfig⟩ := of_decide_eq_true hw
  have hround : Toml.RoundTrips afterTwo :=
    ⟨tomlText "200" "2" "2", by decide +kernel, by decide +kernel⟩
  refine ⟨w, hrun, hquiet, hload, hconfig, hconfig ▸ hround, ?_⟩
  rw [World.Persisted, hload, hconfig]
  decide +kernel

end SynapseMemory.Meta
