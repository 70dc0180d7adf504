import Mathlib

/-!
# Files behind names

A directory gives names to files, and a process that has a file open writes to the file and not to
its name. So after a rename the writes of a process that opened the file before land under the new
name, and a second process that opens a name for writing empties the file of the first one.

As long as no two names are the same file (`Separate`), what happens to the file of one name leaves
what the others read.
-/

namespace Files

variable {ν : Type*}

/-- A disk: the names of files, and their contents by number, so that a rename moves no content. -/
structure Disk (ν : Type*) where
  names : ν → Option ℕ
  data : ℕ → List UInt8
  /-- The first number that no file has. -/
  next : ℕ

/-- The bytes of a file after a write at an offset. What lies between its end and the offset is
filled with zeros. -/
def splice (old : List UInt8) (offset : ℕ) (bytes : List UInt8) : List UInt8 :=
  old.takeD offset 0 ++ bytes ++ old.drop (offset + bytes.length)

theorem splice_end (old bytes : List UInt8) : splice old old.length bytes = old ++ bytes := by
  rw [splice, List.drop_eq_nil_of_le (Nat.le_add_right _ _), List.append_nil,
    List.takeD_eq_take 0 le_rfl, List.take_length]

namespace Disk

/-- `fs::read` -/
def read (d : Disk ν) (name : ν) : Option (List UInt8) := (d.names name).map d.data

/-- `write(2)` to an open file. -/
def writeAt (d : Disk ν) (file offset : ℕ) (bytes : List UInt8) : Disk ν :=
  { d with data := Function.update d.data file (splice (d.data file) offset bytes) }

/-- No two names are the same file. -/
structure Separate (d : Disk ν) : Prop where
  inj : ∀ name other file, d.names name = some file → d.names other = some file → name = other
  below : ∀ name file, d.names name = some file → file < d.next

variable [DecidableEq ν]

/-- `open(2)` for writing, with a new file if the name has none: what was in it is gone. -/
def openTruncated (d : Disk ν) (name : ν) : Disk ν × ℕ :=
  match d.names name with
  | some file => ({ d with data := Function.update d.data file [] }, file)
  | none =>
    (⟨Function.update d.names name (some d.next), Function.update d.data d.next [], d.next + 1⟩,
      d.next)

/-- `rename(2)`, which fails if there is nothing under the name. -/
def rename (d : Disk ν) (name target : ν) : Option (Disk ν) :=
  (d.names name).map fun file =>
    { d with names := Function.update (Function.update d.names target (some file)) name none }

variable {d : Disk ν}

/-- A file that was opened has its name. -/
theorem names_openTruncated (d : Disk ν) (name : ν) :
    (d.openTruncated name).1.names name = some (d.openTruncated name).2 := by
  rw [openTruncated]
  split
  next h => exact h
  next => exact Function.update_self ..

theorem data_openTruncated (d : Disk ν) (name : ν) :
    (d.openTruncated name).1.data (d.openTruncated name).2 = [] := by
  rw [openTruncated]
  split <;> exact Function.update_self ..

namespace Separate

/-- Opening a file leaves no content with two names. -/
theorem openTruncated (h : d.Separate) (name : ν) : (d.openTruncated name).1.Separate := by
  rw [Disk.openTruncated]
  split
  · exact ⟨h.inj, h.below⟩
  · have hcases : ∀ other file, Function.update d.names name (some d.next) other = some file →
        (other = name ∧ file = d.next) ∨ (d.names other = some file ∧ file < d.next) := by
      intro other file hother
      by_cases heq : other = name
      · subst heq
        rw [Function.update_self] at hother
        exact .inl ⟨rfl, (Option.some.inj hother).symm⟩
      · rw [Function.update_of_ne heq] at hother
        exact .inr ⟨hother, h.below other file hother⟩
    refine ⟨fun a b file ha hb => ?_, fun a file ha => ?_⟩
    · rcases hcases a file ha with ⟨rfl, hfile⟩ | ⟨ha, hlt⟩ <;>
        rcases hcases b file hb with ⟨rfl, hfile'⟩ | ⟨hb, hlt'⟩
      · rfl
      · omega
      · omega
      · exact h.inj a b file ha hb
    · rcases hcases a file ha with ⟨_, rfl⟩ | ⟨_, hlt⟩
      · exact Nat.lt_succ_self _
      · exact Nat.lt_succ_of_lt hlt

omit [DecidableEq ν] in
/-- So does writing. -/
theorem writeAt (h : d.Separate) (file offset : ℕ) (bytes : List UInt8) :
    (d.writeAt file offset bytes).Separate :=
  ⟨h.inj, h.below⟩

/-- So does renaming. -/
theorem rename (h : d.Separate) {name target : ν} {d' : Disk ν}
    (hd' : d.rename name target = some d') : d'.Separate := by
  obtain ⟨file, hfile, rfl⟩ := Option.map_eq_some_iff.mp hd'
  have hcases : ∀ other f,
      Function.update (Function.update d.names target (some file)) name none other = some f →
        other ≠ name ∧ ((other = target ∧ f = file) ∨ d.names other = some f) := by
    intro other f hother
    by_cases heq : other = name
    · subst heq
      rw [Function.update_self] at hother
      cases hother
    · rw [Function.update_of_ne heq] at hother
      by_cases htarget : other = target
      · subst htarget
        rw [Function.update_self] at hother
        exact ⟨heq, .inl ⟨rfl, (Option.some.inj hother).symm⟩⟩
      · rw [Function.update_of_ne htarget] at hother
        exact ⟨heq, .inr hother⟩
  refine ⟨fun a b f ha hb => ?_, fun a f ha => ?_⟩
  · obtain ⟨hane, ha⟩ := hcases a f ha
    obtain ⟨hbne, hb⟩ := hcases b f hb
    rcases ha with ⟨hatarget, hf⟩ | ha <;> rcases hb with ⟨hbtarget, hf'⟩ | hb
    · exact hatarget.trans hbtarget.symm
    · exact absurd (h.inj b name f hb (hf ▸ hfile)) hbne
    · exact absurd (h.inj a name f ha (hf' ▸ hfile)) hane
    · exact h.inj a b f ha hb
  · obtain ⟨_, ⟨_, rfl⟩ | ha⟩ := hcases a f ha
    · exact h.below name f hfile
    · exact h.below a f ha

end Separate

theorem read_rename {name target : ν} {d' : Disk ν} (hd' : d.rename name target = some d')
    (hne : target ≠ name) : d'.read target = d.read name := by
  obtain ⟨file, hfile, rfl⟩ := Option.map_eq_some_iff.mp hd'
  dsimp only [read]
  rw [hfile, Function.update_of_ne hne, Function.update_self]

end Disk

end Files
