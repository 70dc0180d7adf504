import Mathlib.Data.List.Infix
import Mathlib.Data.List.Basic

/-!
# Walks in a file tree

A tree of files, directories and symbolic links, and the walk by which an operating system finds
what a path is for. A link is replaced by its target, up to a number of links; `up` leaves the
directory that the walk is in, not the name before it.

The end of a walk is a place with directories above it, and is no link (`walk_canonical`). A path of
names without a link on it leads to itself (`walk_names`), and directories that are made later do
not change that (`Grows`).
-/

namespace PathWalk

variable {ν : Type}

/-- What is between two slashes. -/
inductive Comp (ν : Type) where
  | name (x : ν)
  | up
  /-- a dot, or nothing behind the last slash: what is before it has to be a directory -/
  | here
  deriving DecidableEq

/-- A path, as it is written. -/
structure FsPath (ν : Type) where
  absolute : Bool
  comps : List (Comp ν)
  deriving DecidableEq

/-- The names from the root. -/
abbrev Loc (ν : Type) : Type := List ν

/-- What a file system has at a location. -/
inductive FsNode (ν : Type) where
  | file
  | dir
  | link (target : FsPath ν)
  deriving DecidableEq

/-- A file system: what is at each location, if anything is. -/
abbrev FsTree (ν : Type) : Type := Loc ν → Option (FsNode ν)

/-- The path of a place. -/
def Loc.path (loc : Loc ν) : FsPath ν := ⟨true, loc.map .name⟩

variable [DecidableEq ν]

/-- A walk without a link, and `next` from a link on. With `create` the last name may be new. -/
def follow (fs : FsTree ν) (create : Bool) (next : Loc ν → List (Comp ν) → Option (Loc ν)) :
    Loc ν → List (Comp ν) → Option (Loc ν)
  | loc, [] => some loc
  | loc, .up :: rest =>
    if fs loc = some .dir then follow fs create next loc.dropLast rest else none
  | loc, .here :: rest => if fs loc = some .dir then follow fs create next loc rest else none
  | loc, .name x :: rest =>
    if fs loc = some .dir then
      match fs (loc ++ [x]) with
      | none => if create = true ∧ rest = [] then some (loc ++ [x]) else none
      | some (.link target) => next (if target.absolute then [] else loc) (target.comps ++ rest)
      | some _ => follow fs create next (loc ++ [x]) rest
    else none

/-- A walk with up to so many links. -/
def walk (fs : FsTree ν) (create : Bool) : ℕ → Loc ν → List (Comp ν) → Option (Loc ν)
  | 0 => follow fs create fun _ _ => none
  | links + 1 => follow fs create (walk fs create links)

/-- Where a path leads to from a directory. -/
def resolve (fs : FsTree ν) (create : Bool) (links : ℕ) (cwd : Loc ν) (p : FsPath ν) :
    Option (Loc ν) :=
  walk fs create links (if p.absolute then [] else cwd) p.comps

/-- The path of an existing thing without links and `up`. -/
def canonicalize (fs : FsTree ν) (links : ℕ) (cwd : Loc ν) (p : FsPath ν) : Option (Loc ν) :=
  resolve fs false links cwd p

/-! ## The end of a walk -/

/-- Directories above, and no link. -/
structure Canonical (fs : FsTree ν) (loc : Loc ν) : Prop where
  above : ∀ l, l <+: loc → l ≠ loc → fs l = some .dir
  not_link : ∀ target, fs loc ≠ some (.link target)

/-- Nothing on the way to a place is a link. -/
def LinkFree (fs : FsTree ν) (loc : Loc ν) : Prop :=
  ∀ l, l <+: loc → ∀ target, fs l ≠ some (.link target)

omit [DecidableEq ν] in
theorem Canonical.linkFree {fs : FsTree ν} {loc : Loc ν} (h : Canonical fs loc) :
    LinkFree fs loc := by
  intro l hl target heq
  by_cases hself : l = loc
  · exact h.not_link target (hself ▸ heq)
  · rw [h.above l hl hself] at heq
    cases heq

omit [DecidableEq ν] in
theorem LinkFree.child {fs : FsTree ν} {loc : Loc ν} (h : LinkFree fs loc) {x : ν}
    (hlink : ∀ target, fs (loc ++ [x]) ≠ some (.link target)) : LinkFree fs (loc ++ [x]) := by
  intro l hl
  rcases List.prefix_concat_iff.mp hl with rfl | hl
  · exact hlink
  · exact h l hl

omit [DecidableEq ν] in
theorem LinkFree.above_of {fs : FsTree ν} {loc loc' : Loc ν} (h : LinkFree fs loc)
    (hle : loc' <+: loc) : LinkFree fs loc' :=
  fun l hl => h l (hl.trans hle)

omit [DecidableEq ν] in
/-- A name below a directory. -/
theorem Canonical.child {fs : FsTree ν} {loc : Loc ν} (h : Canonical fs loc)
    (hdir : fs loc = some .dir) {x : ν}
    (hlink : ∀ target, fs (loc ++ [x]) ≠ some (.link target)) : Canonical fs (loc ++ [x]) := by
  refine ⟨fun l hl hne => ?_, hlink⟩
  rcases List.prefix_concat_iff.mp hl with heq | hl
  · exact absurd heq hne
  · by_cases hself : l = loc
    · exact hself ▸ hdir
    · exact h.above l hl hself

omit [DecidableEq ν] in
/-- The location above a canonical one is canonical. -/
theorem Canonical.dropLast {fs : FsTree ν} {loc : Loc ν} (h : Canonical fs loc) :
    Canonical fs loc.dropLast := by
  rcases eq_or_ne loc [] with rfl | hne
  · exact h
  have hless : loc.dropLast ≠ loc := fun heq => by
    have := congrArg List.length heq
    rw [List.length_dropLast] at this
    have := List.length_pos_iff.mpr hne
    omega
  have hdir := h.above _ (List.dropLast_prefix loc) hless
  refine ⟨fun l hl _ => ?_, fun target heq => ?_⟩
  · refine h.above l (hl.trans (List.dropLast_prefix loc)) fun heq => ?_
    have := hl.length_le
    rw [heq, List.length_dropLast] at this
    have := List.length_pos_iff.mpr hne
    omega
  · rw [hdir] at heq
    cases heq

omit [DecidableEq ν] in
theorem canonical_root {fs : FsTree ν} (hroot : fs [] = some .dir) : Canonical fs [] := by
  refine ⟨fun l hl hne => absurd (List.prefix_nil.mp hl) hne, fun target heq => ?_⟩
  rw [hroot] at heq
  cases heq

/-- A walk that goes on from links to canonical places ends in one. -/
theorem follow_canonical {fs : FsTree ν} {create : Bool}
    {next : Loc ν → List (Comp ν) → Option (Loc ν)} (hroot : fs [] = some .dir)
    (hnext : ∀ loc comps loc', Canonical fs loc → next loc comps = some loc' → Canonical fs loc')
    {comps : List (Comp ν)} {loc loc' : Loc ν} (hloc : Canonical fs loc)
    (h : follow fs create next loc comps = some loc') : Canonical fs loc' := by
  induction comps generalizing loc with
  | nil => exact Option.some_inj.mp h ▸ hloc
  | cons c comps ih =>
    cases c with
    | up =>
      rw [follow] at h
      split at h
      · exact ih hloc.dropLast h
      · cases h
    | here =>
      rw [follow] at h
      split at h
      · exact ih hloc h
      · cases h
    | name x =>
      rw [follow] at h
      split at h
      next hdir =>
        split at h
        next hnone =>
          split at h
          · obtain rfl := Option.some_inj.mp h
            exact hloc.child hdir (by simp [hnone])
          · cases h
        next target hlink =>
          refine hnext _ _ _ ?_ h
          split
          · exact canonical_root hroot
          · exact hloc
        next node hlink hsome =>
          refine ih (hloc.child hdir fun target heq => ?_) h
          rw [hsome] at heq
          exact hlink target (Option.some_inj.mp heq)
      next => cases h

/-- **A walk ends at a canonical place.** -/
theorem walk_canonical {fs : FsTree ν} {create : Bool} (hroot : fs [] = some .dir) {links : ℕ}
    {comps : List (Comp ν)} {loc loc' : Loc ν} (hloc : Canonical fs loc)
    (h : walk fs create links loc comps = some loc') : Canonical fs loc' := by
  induction links generalizing comps loc loc' with
  | zero => exact follow_canonical hroot (fun _ _ _ _ h => by cases h) hloc h
  | succ links ih => exact follow_canonical hroot (fun _ _ _ hloc h => ih hloc h) hloc h

/-- Names without a link are followed to the location that they say. -/
theorem follow_names {fs : FsTree ν} {create : Bool}
    {next : Loc ν → List (Comp ν) → Option (Loc ν)} {xs : List ν} {loc loc' : Loc ν}
    (hfree : LinkFree fs (loc ++ xs))
    (h : follow fs create next loc (xs.map .name) = some loc') : loc' = loc ++ xs := by
  induction xs generalizing loc with
  | nil => rw [List.append_nil, ← Option.some_inj.mp h]
  | cons x xs ih =>
    have hsplit : loc ++ x :: xs = loc ++ [x] ++ xs := by simp
    rw [hsplit] at hfree ⊢
    rw [List.map_cons, follow] at h
    split at h
    next =>
      split at h
      next =>
        split at h
        next hlast =>
          rw [List.map_eq_nil_iff.mp hlast.2, List.append_nil, ← Option.some_inj.mp h]
        next => cases h
      next target hlink => exact absurd hlink (hfree _ (List.prefix_append _ _) target)
      next => exact ih hfree h
    next => cases h

/-- **A path of names without a link leads to itself**, if it leads anywhere. -/
theorem walk_names {fs : FsTree ν} {create : Bool} {links : ℕ} {xs : List ν} {loc loc' : Loc ν}
    (hfree : LinkFree fs (loc ++ xs))
    (h : walk fs create links loc (xs.map .name) = some loc') : loc' = loc ++ xs := by
  cases links with
  | zero => exact follow_names hfree h
  | succ links => exact follow_names hfree h

/-! ## Later trees -/

/-- Directories are made where there was nothing. -/
def Grows (fs fs' : FsTree ν) : Prop :=
  ∀ loc, fs' loc = fs loc ∨ (fs loc = none ∧ fs' loc = some .dir)

omit [DecidableEq ν] in
/-- New entries put no link on the way. -/
theorem LinkFree.grows {fs fs' : FsTree ν} {loc : Loc ν} (h : LinkFree fs loc)
    (hgrow : Grows fs fs') : LinkFree fs' loc := by
  intro l hl target heq
  rcases hgrow l with hsame | ⟨-, hdir⟩
  · exact h l hl target (hsame ▸ heq)
  · rw [hdir] at heq
    cases heq

/-- **Where a path of names leads**, at any later time. -/
theorem resolve_path {fs fs' : FsTree ν} {create : Bool} {links : ℕ} {cwd loc loc' : Loc ν}
    (hfree : LinkFree fs loc) (hgrow : Grows fs fs')
    (h : resolve fs' create links cwd loc.path = some loc') : loc' = loc :=
  walk_names (hfree.grows hgrow) h

omit [DecidableEq ν] in
/-- A place and one that is below it, as paths. -/
theorem prefix_of_path {base loc : Loc ν} (h : base.path.comps <+: loc.path.comps) :
    base <+: loc := by
  obtain ⟨rest, hrest⟩ := h
  obtain ⟨front, back, hloc, hfront, -⟩ := List.map_eq_append_iff.mp hrest.symm
  have heq : front = base := by
    refine List.map_injective_iff.mpr (fun x y hxy => ?_) hfront
    injection hxy
  exact ⟨back, by rw [hloc, heq]⟩

end PathWalk
