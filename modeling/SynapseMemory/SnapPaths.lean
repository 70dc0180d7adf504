import SynapseMemory.PathWalk
import SynapseMemory.Text

/-!
# Where snapshots are written

The model of `sanitize_snap_path` and of what the file system does with the path that it returns. A
client of the daemon names the file; the daemon opens it for reading or for writing, maybe after
others have made directories.

What exists is checked as a whole. What does not exist is checked by its directory, and where that
does not exist either, by its text. A link that leads nowhere passes the second check, and so does
one that leads to a file if there is a slash behind its name; `..` behind a name that does not exist
passes the third. Without these what is opened is below the directory of snapshots, whatever is made
later (`sanitizeSnapPath_confined`).
-/

namespace SynapseMemory.SnapPaths

open PathWalk

/-! ## Paths -/

/-- The path in a string. An empty component and `.` are no components, but at the end they ask for
a directory. -/
def pathOf (t : Text) : FsPath Text :=
  let parts := t.splitOn '/'
  ⟨t.head? = some '/', ((parts.filter fun c => c ≠ [] ∧ c ≠ ['.']).map fun c =>
    if c = ['.', '.'] then .up else .name c) ++
      if parts.getLast? = some [] ∨ parts.getLast? = some ['.'] then [.here] else []⟩

/-- The components, which what is asked for at the end does not belong to. -/
def components (p : FsPath Text) : List (Comp Text) := p.comps.filter (· ≠ .here)

/-- `join`: an absolute path replaces the base. -/
def join (base p : FsPath Text) : FsPath Text :=
  if p.absolute then p else ⟨base.absolute, base.comps ++ p.comps⟩

/-- `starts_with` -/
def startsWith (p base : FsPath Text) : Prop :=
  p.absolute = base.absolute ∧ components base <+: components p

instance (p base : FsPath Text) : Decidable (startsWith p base) :=
  inferInstanceAs (Decidable (_ ∧ _))

/-- `parent` -/
def parent (p : FsPath Text) : Option (FsPath Text) :=
  if components p = [] then none else some ⟨p.absolute, (components p).dropLast⟩

/-- A path that ends in `..` has no file name. -/
def fileName (p : FsPath Text) : Option Text :=
  match (components p).getLast? with
  | some (.name x) => some x
  | _ => none

/-! ## The check -/

/-- Why a path is refused. -/
inductive Error where
  | canonicalize
  | escapes (canonBase : FsPath Text)
  | noParent
  | outside (canonBase : FsPath Text)
  | noFilename
  deriving DecidableEq

variable (fs : FsTree Text) (links : ℕ) (cwd : Loc Text)

/-- The canonical path, or the path as it is. -/
def canonicalOr (p : FsPath Text) : FsPath Text :=
  match canonicalize fs links cwd p with
  | some loc => loc.path
  | none => p

/-- `sanitize_snap_path` -/
def sanitizeSnapPath (base : FsPath Text) (out : Text) : Except Error (FsPath Text) :=
  let absolute := join base (pathOf out)
  let canonBase := canonicalOr fs links cwd base
  if (resolve fs false links cwd absolute).isSome then
    match canonicalize fs links cwd absolute with
    | none => .error .canonicalize
    | some loc =>
      if startsWith loc.path canonBase then .ok loc.path else .error (.escapes canonBase)
  else
    match parent absolute with
    | none => .error .noParent
    | some parent =>
      let canonParent := canonicalOr fs links cwd parent
      if startsWith canonParent canonBase then
        match fileName absolute with
        | none => .error .noFilename
        | some fname => .ok (join canonParent ⟨false, [.name fname]⟩)
      else .error (.outside canonBase)

/-! ## What is opened -/

/-- A path that the check looks at as a whole: it exists, or its directory does and there is no link
in its place, or it is made of names and has no link on it. -/
inductive Checked (p : FsPath Text) : Prop where
  | target (h : (resolve fs false links cwd p).isSome)
  | inDir (dir : Loc Text) (x : Text) (hname : fileName p = some x)
      (hdir : canonicalize fs links cwd ⟨p.absolute, (components p).dropLast⟩ = some dir)
      (hlink : ∀ target, fs (dir ++ [x]) ≠ some (.link target))
  | names (loc : Loc Text) (habsolute : p.absolute = true)
      (hcomps : components p = loc.map .name) (hfree : LinkFree fs loc)

variable {fs links cwd} {base : FsPath Text} {canonBase : Loc Text} {out : Text} {p : FsPath Text}

theorem canonicalOr_of_some {loc : Loc Text} (h : canonicalize fs links cwd p = some loc) :
    canonicalOr fs links cwd p = loc.path := by
  rw [canonicalOr, h]

theorem canonical_of_canonicalize (hroot : fs [] = some .dir) (hcwd : Canonical fs cwd)
    {loc : Loc Text} (h : canonicalize fs links cwd p = some loc) : Canonical fs loc := by
  refine walk_canonical hroot ?_ h
  split
  · exact canonical_root hroot
  · exact hcwd

theorem components_path (loc : Loc Text) : components loc.path = loc.map .name := by
  refine List.filter_eq_self.mpr fun c hc => ?_
  obtain ⟨x, -, rfl⟩ := List.mem_map.mp hc
  rfl

theorem fileName_eq_some {x : Text} (h : fileName p = some x) :
    components p = (components p).dropLast ++ [.name x] := by
  rw [fileName] at h
  split at h
  next y hlast =>
    obtain rfl := Option.some_inj.mp h
    exact (List.dropLast_append_getLast? _ hlast).symm
  next => cases h

/-- A name below a place. -/
theorem join_name (loc : Loc Text) (x : Text) :
    join loc.path ⟨false, [.name x]⟩ = Loc.path (loc ++ [x]) := by
  rw [join, if_neg (by simp), Loc.path, Loc.path, List.map_append]
  rfl

/-- The last of some names. -/
theorem exists_concat_of_map {loc : Loc Text} {y : Text}
    (h : loc.map Comp.name = (loc.map Comp.name).dropLast ++ [.name y]) :
    ∃ front, loc = front ++ [y] := by
  rcases List.eq_nil_or_concat loc with rfl | ⟨front, x, rfl⟩
  · simp at h
  · refine ⟨front, ?_⟩
    have hlast : x = y := by simpa using h
    rw [← hlast, List.concat_eq_append]

/-- A path of names without a link is its own canonical path, if it has one. -/
theorem canonicalOr_path {loc : Loc Text} (hfree : LinkFree fs loc) :
    canonicalOr fs links cwd loc.path = loc.path := by
  rw [canonicalOr]
  split
  next loc' h => rw [walk_names hfree h]; rfl
  next => rfl

theorem prefix_of_startsWith {loc : Loc Text} (h : startsWith loc.path canonBase.path) :
    canonBase <+: loc := by
  have hprefix := h.2
  rw [components_path, components_path] at hprefix
  exact prefix_of_path hprefix

/-- What is returned: the canonical path of a target that is there, or the file name under the
canonical parent of one that is not. Each is checked against the base. -/
theorem sanitizeSnapPath_ok (hbase : canonicalize fs links cwd base = some canonBase)
    (h : sanitizeSnapPath fs links cwd base out = .ok p) {target : FsPath Text}
    (htarget : join base (pathOf out) = target) :
    (∃ loc, canonicalize fs links cwd target = some loc ∧
      startsWith loc.path canonBase.path ∧ p = loc.path) ∨
    ¬(resolve fs false links cwd target).isSome ∧ ∃ fname parent,
      fileName target = some fname ∧
      canonicalOr fs links cwd ⟨target.absolute, (components target).dropLast⟩ = parent ∧
      startsWith parent canonBase.path ∧ p = join parent ⟨false, [.name fname]⟩ := by
  rw [sanitizeSnapPath, canonicalOr_of_some hbase, htarget] at h
  dsimp only at h
  split at h
  next hexists =>
    split at h
    · cases h
    next loc hloc =>
      split at h
      next hstarts =>
        obtain rfl := Except.ok.inj h
        exact .inl ⟨loc, hloc, hstarts, rfl⟩
      next => cases h
  next hmissing =>
    rw [parent] at h
    split at h
    · cases h
    next q hparent =>
      split at hparent
      · cases hparent
      obtain rfl := Option.some_inj.mp hparent
      split at h
      next hstarts =>
        split at h
        · cases h
        next fname hfname =>
          obtain rfl := Except.ok.inj h
          exact .inr ⟨hmissing, fname, _, hfname, rfl, hstarts, rfl⟩
      next => cases h

/-- **What is returned for a checked path** is a place below the base that no link leads away
from. -/
theorem sanitizeSnapPath_place (hroot : fs [] = some .dir) (hcwd : Canonical fs cwd)
    (hbase : canonicalize fs links cwd base = some canonBase)
    (h : sanitizeSnapPath fs links cwd base out = .ok p)
    (hchecked : Checked fs links cwd (join base (pathOf out))) :
    ∃ loc : Loc Text, p = loc.path ∧ LinkFree fs loc ∧ canonBase <+: loc := by
  generalize htarget : join base (pathOf out) = target at hchecked
  rcases sanitizeSnapPath_ok hbase h htarget with ⟨loc, hloc, hstarts, rfl⟩ |
    ⟨hmissing, fname, parent, hfname, hparent, hstarts, rfl⟩
  · exact ⟨loc, rfl, (canonical_of_canonicalize hroot hcwd hloc).linkFree,
      prefix_of_startsWith hstarts⟩
  cases hchecked with
  | target hexists => exact absurd hexists hmissing
  | inDir dir x hname hdir hlink =>
    obtain rfl := Option.some_inj.mp (hname.symm.trans hfname)
    rw [canonicalOr_of_some hdir] at hparent
    subst hparent
    have hfree := (canonical_of_canonicalize hroot hcwd hdir).linkFree
    exact ⟨dir ++ [x], join_name dir x, hfree.child hlink,
      (prefix_of_startsWith hstarts).trans (List.prefix_append dir [x])⟩
  | names loc habsolute hnames hfree =>
    have hcomps := fileName_eq_some hfname
    rw [hnames] at hcomps
    obtain ⟨front, rfl⟩ := exists_concat_of_map hcomps
    have hfront := hfree.above_of (List.prefix_append front [fname])
    have hplace : (⟨target.absolute, (components target).dropLast⟩ : FsPath Text) =
        front.path := by
      rw [habsolute, hnames, List.map_append, List.map_singleton, List.dropLast_concat]
      rfl
    rw [hplace, canonicalOr_path hfront] at hparent
    subst hparent
    exact ⟨front ++ [fname], join_name front fname, hfree,
      (prefix_of_startsWith hstarts).trans (List.prefix_append front [fname])⟩

/-- **Snapshots stay below their directory.** Nothing outside of it is read, overwritten or created
through the path that is returned, whatever directories are made in between. -/
theorem sanitizeSnapPath_confined {fs' : FsTree Text} (hroot : fs [] = some .dir)
    (hcwd : Canonical fs cwd) (hbase : canonicalize fs links cwd base = some canonBase)
    (h : sanitizeSnapPath fs links cwd base out = .ok p)
    (hchecked : Checked fs links cwd (join base (pathOf out))) (hgrow : Grows fs fs')
    {create : Bool} {cwd' opened : Loc Text}
    (hopen : resolve fs' create links cwd' p = some opened) : canonBase <+: opened := by
  obtain ⟨loc, rfl, hfree, hprefix⟩ := sanitizeSnapPath_place hroot hcwd hbase h hchecked
  rwa [resolve_path hfree hgrow hopen]

/-! ## A directory of snapshots -/

/-- The directory `s`, and in it the link `l` to `/x`, which does not exist. -/
def danglingLink : FsTree Text := fun loc =>
  if loc = [] ∨ loc = [['s']] then some .dir
  else if loc = [['s'], ['l']] then some (.link ⟨true, [.name ['x']]⟩)
  else none

/-- With the directory `s/a`. -/
def withDir : FsTree Text := fun loc => if loc = [['s'], ['a']] then some .dir else danglingLink loc

theorem sanitizeSnapPath_confined_newDir :
    resolve withDir true 40 [] (Loc.path [['s'], ['a'], ['b']]) = some [['s'], ['a'], ['b']] ∧
      ([['s']] : Loc Text) <+: [['s'], ['a'], ['b']] := by
  have hopen : resolve withDir true 40 [] (Loc.path [['s'], ['a'], ['b']]) =
      some [['s'], ['a'], ['b']] := by decide
  have hgrow : Grows danglingLink withDir := by
    intro loc
    by_cases hloc : loc = [['s'], ['a']]
    · exact .inr ⟨by rw [hloc]; rfl, if_pos hloc⟩
    · exact .inl (if_neg hloc)
  have hfree : LinkFree danglingLink [['s'], ['a'], ['b']] := by
    intro l hl target hlink
    have hl' : l = [['s'], ['l']] := by
      by_contra hne
      rw [danglingLink, if_neg hne] at hlink
      split at hlink <;> simp at hlink
    rw [hl'] at hl
    exact absurd hl (by decide)
  have hbase : canonicalize danglingLink 40 [] ⟨true, [.name ['s']]⟩ = some [['s']] := by decide
  have hp : sanitizeSnapPath danglingLink 40 [] ⟨true, [.name ['s']]⟩ "a/b".toList =
      .ok (Loc.path [['s'], ['a'], ['b']]) := by decide
  exact ⟨hopen, sanitizeSnapPath_confined rfl (canonical_root rfl) hbase hp
    (.names [['s'], ['a'], ['b']] rfl (by decide) hfree) hgrow hopen⟩

-- A link that leads nowhere is not seen, and is followed.
example : sanitizeSnapPath danglingLink 40 [] ⟨true, [.name ['s']]⟩ ['l'] =
      .ok (Loc.path [['s'], ['l']]) ∧
    resolve danglingLink true 40 [] (Loc.path [['s'], ['l']]) = some [['x']] := by
  decide

/-- The link leads to a file. -/
def linkToFile : FsTree Text := fun loc => if loc = [['x']] then some .file else danglingLink loc

-- The link is seen, but not with a slash behind it: there is no directory `l`.
example : sanitizeSnapPath linkToFile 40 [] ⟨true, [.name ['s']]⟩ ['l'] =
      .error (.escapes ⟨true, [.name ['s']]⟩) ∧
    sanitizeSnapPath linkToFile 40 [] ⟨true, [.name ['s']]⟩ ['l', '/'] =
      .ok (Loc.path [['s'], ['l']]) ∧
    resolve linkToFile true 40 [] (Loc.path [['s'], ['l']]) = some [['x']] := by
  decide

-- `a/../../x` passes as long as there is no `a`.
example : sanitizeSnapPath danglingLink 40 [] ⟨true, [.name ['s']]⟩ "a/../../x".toList =
      .ok ⟨true, [.name ['s'], .name ['a'], .up, .up, .name ['x']]⟩ ∧
    resolve withDir true 40 [] ⟨true, [.name ['s'], .name ['a'], .up, .up, .name ['x']]⟩ =
      some [['x']] := by
  decide

end SynapseMemory.SnapPaths
