import SynapseMemory.Store
import SynapseMemory.Transition

/-!
# Roles on spaces, and their cache

The model of `synapse-rbac`: the tables `spaces` and `rbac_roles`, the functions that change them,
`enforce`, and `enforce_cached` with a shared `RoleCache`. The cache keeps the first role that a
lookup finds for a space and a user, and no function of the crate takes it out again.

So `enforce_cached` answers as `enforce` does as long as no role that is cached is changed or
revoked, and not after that: the condition is exact (`cached_agrees_iff`).
-/

namespace SynapseMemory.Rbac

open Transition

/-- `Role` -/
inductive Role where
  | owner
  | editor
  | reader
  deriving DecidableEq

/-- `Permission` -/
inductive Permission where
  | read
  | write
  | delete
  | admin
  deriving DecidableEq

/-- `as_str` -/
def Role.asStr : Role → String
  | .owner => "owner"
  | .editor => "editor"
  | .reader => "reader"

/-- `grants` -/
def Role.grants : Role → Permission → Bool
  | .owner, _ => true
  | .editor, .read => true
  | .editor, .write => true
  | .reader, .read => true
  | _, _ => false

/-- `str::parse::<Role>().ok()` -/
def Role.fromStr (s : String) : Option Role :=
  if s = "owner" then some .owner
  else if s = "editor" then some .editor
  else if s = "reader" then some .reader
  else none

theorem Role.fromStr_asStr (r : Role) : Role.fromStr r.asStr = some r := by
  cases r <;> decide

/-- A role is known by what it grants. -/
theorem Role.eq_of_grants {r r' : Role} (h : ∀ p, r.grants p = r'.grants p) : r = r' := by
  have hwrite := h .write
  have hdelete := h .delete
  cases r <;> cases r' <;>
    first | rfl | exact absurd hwrite (by decide) | exact absurd hdelete (by decide)

/-- `RbacError` -/
inductive RbacError where
  | spaceNotFound (space : String)
  | denied (needed : Permission) (space : String) (have_ : Option Role)
  | sqlite (message : String)
  deriving DecidableEq

/-- `Space` -/
structure Space where
  id : ℤ
  name : String
  owner : String
  createdAt : ℤ
  deriving DecidableEq

/-- The constraints on `spaces`. -/
def spaceSchema : Schema Space String Unit where
  id := Space.id
  key := Space.name
  alt := fun _ => none

/-- A row of `rbac_roles` besides its key. -/
structure RoleRow where
  role : String
  grantedAt : ℤ
  grantedBy : String
  deriving DecidableEq

/-- The two tables of a connection; `rbac_roles` by its primary key, the space and the user. -/
structure Db where
  spaces : Table spaceSchema
  roles : AList fun _ : ℤ × String => RoleRow
  /-- `PRAGMA foreign_keys` -/
  foreignKeys : Bool

/-- The tables as `init_schema` makes them. -/
def Db.new (foreignKeys : Bool) : Db := ⟨Table.empty, ∅, foreignKeys⟩

/-- `lookup_space` -/
def lookupSpace (db : Db) (name : String) : Option Space := db.spaces.byKey name

/-- `lookup_role` -/
def lookupRole (db : Db) (spaceId : ℤ) (userId : String) : Option Role :=
  (db.roles.lookup (spaceId, userId)).bind fun row => Role.fromStr row.role

/-- A row of `rbac_roles` may name this space. -/
def Db.Referable (db : Db) (spaceId : ℤ) : Prop :=
  db.foreignKeys = true → ∃ sp ∈ db.spaces.rows, sp.id = spaceId

instance (db : Db) (spaceId : ℤ) : Decidable (db.Referable spaceId) :=
  inferInstanceAs (Decidable (db.foreignKeys = true → ∃ sp ∈ db.spaces.rows, sp.id = spaceId))

/-- The `INSERT` into `spaces`. -/
def insertSpace (db : Db) (now : ℤ) (name owner : String) : Except RbacError (Db × ℤ) :=
  if ¬db.spaces.seq < maxRowid then .error (.sqlite "database or disk is full")
  else if hname : lookupSpace db name = none then
    .ok ({ db with
      spaces := db.spaces.insert ⟨db.spaces.seq + 1, name, owner, now⟩ rfl
        (db.spaces.byKey_eq_none.mp hname) (fun _ _ _ h => nomatch h) }, db.spaces.seq + 1)
  else .error (.sqlite "UNIQUE constraint failed: spaces.name")

/-- The two statements stand in no transaction: if the second one fails, the space is there. -/
def createSpace (db : Db) (now : ℤ) (name owner : String) : Db × Except RbacError Space :=
  match insertSpace db now name owner with
  | .error e => (db, .error e)
  | .ok (db, id) =>
    if (db.roles.lookup (id, owner)).isSome then
      (db, .error (.sqlite "UNIQUE constraint failed: rbac_roles.space_id, rbac_roles.user_id"))
    else ({ db with roles := db.roles.insert (id, owner) ⟨"owner", now, owner⟩ },
      .ok ⟨id, name, owner, now⟩)

/-- `grant_role` -/
def grantRole (db : Db) (now spaceId : ℤ) (userId : String) (role : Role) (grantedBy : String) :
    Db × Except RbacError Unit :=
  if db.Referable spaceId then
    ({ db with roles := db.roles.insert (spaceId, userId) ⟨role.asStr, now, grantedBy⟩ }, .ok ())
  else (db, .error (.sqlite "FOREIGN KEY constraint failed"))

/-- `revoke_role` -/
def revokeRole (db : Db) (spaceId : ℤ) (userId : String) : Db :=
  { db with roles := db.roles.erase (spaceId, userId) }

/-- `enforce` -/
def enforce (db : Db) (spaceName userId : String) (perm : Permission) : Except RbacError Unit :=
  match lookupSpace db spaceName with
  | none => .error (.spaceNotFound spaceName)
  | some space =>
    let role := lookupRole db space.id userId
    match role.map (·.grants perm) with
    | some true => .ok ()
    | _ => .error (.denied perm spaceName role)

/-- `RoleCache`: the role of a user on a space, by the space's name. -/
abbrev RoleCache : Type := String × String → Option Role

/-- The cache without entries. -/
def RoleCache.new : RoleCache := fun _ => none

/-- The result, and the cache that the call leaves. -/
def enforceCached (db : Db) (cache : RoleCache) (spaceName userId : String) (perm : Permission) :
    Except RbacError Unit × RoleCache :=
  match cache (spaceName, userId) with
  | some role =>
    (if role.grants perm then .ok () else .error (.denied perm spaceName (some role)), cache)
  | none =>
    match lookupSpace db spaceName with
    | none => (.error (.spaceNotFound spaceName), cache)
    | some space =>
      match lookupRole db space.id userId with
      | some r =>
        (if r.grants perm then .ok () else .error (.denied perm spaceName (some r)),
          Function.update cache (spaceName, userId) (some r))
      | none => (.error (.denied perm spaceName none), cache)

/-! ## The role at this moment -/

/-- The role that the tables give a user on the space with a name. -/
def currentRole (db : Db) (spaceName userId : String) : Option Role :=
  (lookupSpace db spaceName).bind fun space => lookupRole db space.id userId

theorem enforce_eq {db : Db} {spaceName userId : String} {r : Role}
    (h : currentRole db spaceName userId = some r) (perm : Permission) :
    enforce db spaceName userId perm =
      if r.grants perm then .ok () else .error (.denied perm spaceName (some r)) := by
  obtain ⟨space, hspace, hrole⟩ := Option.bind_eq_some_iff.mp h
  simp only [enforce, hspace, hrole, Option.map_some]
  cases r.grants perm <;> rfl

/-- What `enforce` lets through has a role that grants it. -/
theorem enforce_ok {db : Db} {spaceName userId : String} {perm : Permission}
    (h : enforce db spaceName userId perm = .ok ()) :
    ∃ r, currentRole db spaceName userId = some r ∧ r.grants perm = true := by
  rw [enforce] at h
  cases hspace : lookupSpace db spaceName with
  | none =>
    rw [hspace] at h
    cases h
  | some space =>
    cases hrole : lookupRole db space.id userId with
    | none =>
      simp only [hspace, hrole, Option.map_none] at h
      cases h
    | some r =>
      refine ⟨r, by rw [currentRole, hspace, Option.bind_some, hrole], ?_⟩
      simp only [hspace, hrole, Option.map_some] at h
      cases hgrants : r.grants perm with
      | true => rfl
      | false =>
        rw [hgrants] at h
        cases h

/-- Every cached role is the one the tables have. -/
def Mirrors (db : Db) (cache : RoleCache) : Prop :=
  ∀ spaceName userId r, cache (spaceName, userId) = some r →
    currentRole db spaceName userId = some r

/-- With this cache `enforce_cached` answers any call as `enforce` does. -/
def Agrees (db : Db) (cache : RoleCache) : Prop :=
  ∀ spaceName userId perm,
    (enforceCached db cache spaceName userId perm).1 = enforce db spaceName userId perm

theorem enforceCached_of_miss {db : Db} {cache : RoleCache} {spaceName userId : String}
    (h : cache (spaceName, userId) = none) (perm : Permission) :
    enforceCached db cache spaceName userId perm =
      (enforce db spaceName userId perm,
        match currentRole db spaceName userId with
        | some r => Function.update cache (spaceName, userId) (some r)
        | none => cache) := by
  simp only [enforceCached, h, enforce, currentRole]
  cases lookupSpace db spaceName with
  | none => rfl
  | some space =>
    simp only [Option.bind_some]
    cases lookupRole db space.id userId with
    | none => rfl
    | some r =>
      simp only [Option.map_some]
      cases r.grants perm <;> rfl

/-- The cache agrees exactly if it mirrors the tables. -/
theorem agrees_iff {db : Db} {cache : RoleCache} : Agrees db cache ↔ Mirrors db cache := by
  refine ⟨?_, ?_⟩
  · intro h spaceName userId r hcache
    have hsame : ∀ perm, (if r.grants perm then .ok () else
        .error (.denied perm spaceName (some r))) = enforce db spaceName userId perm := by
      intro perm
      rw [← h, enforceCached, hcache]
    -- every role grants reading, so the tables have a role as well
    have hread : r.grants .read = true := by cases r <;> rfl
    have hok := (hsame .read).symm
    rw [if_pos hread] at hok
    obtain ⟨r', hr', -⟩ := enforce_ok hok
    have hgrants : ∀ perm, r.grants perm = r'.grants perm := by
      intro perm
      have hperm := hsame perm
      rw [enforce_eq hr'] at hperm
      cases hr : r.grants perm <;> cases hr'' : r'.grants perm <;>
        first | rfl | (rw [hr, hr''] at hperm; cases hperm)
    rw [hr', Role.eq_of_grants hgrants]
  · intro h spaceName userId perm
    cases hcache : cache (spaceName, userId) with
    | none => rw [enforceCached_of_miss hcache]
    | some r => rw [enforce_eq (h spaceName userId r hcache), enforceCached, hcache]

/-! ## Runs -/

/-- A connection and the cache that its callers share. -/
structure State where
  db : Db
  cache : RoleCache

/-- A call on the roles of a space. -/
inductive Action where
  | createSpace (now : ℤ) (name owner : String)
  | grantRole (now spaceId : ℤ) (userId : String) (role : Role) (grantedBy : String)
  | revokeRole (spaceId : ℤ) (userId : String)
  | enforceCached (spaceName userId : String) (perm : Permission)

/-- The tables and the cache after a call. -/
def State.after (s : State) : Action → State
  | .createSpace now name owner => { s with db := (createSpace s.db now name owner).1 }
  | .grantRole now spaceId userId role grantedBy =>
    { s with db := (grantRole s.db now spaceId userId role grantedBy).1 }
  | .revokeRole spaceId userId => { s with db := revokeRole s.db spaceId userId }
  | .enforceCached spaceName userId perm =>
    { s with cache := (Rbac.enforceCached s.db s.cache spaceName userId perm).2 }

/-- A call is always possible. -/
def State.step (s : State) (a : Action) : Option State := some (s.after a)

/-- The call does not change a role that is cached. -/
def Untouched (s : State) : Action → Prop
  | .grantRole _ spaceId userId role _ =>
    ∀ sp ∈ s.db.spaces.rows, sp.id = spaceId → ∀ r ∈ s.cache (sp.name, userId), r = role
  | .revokeRole spaceId userId =>
    ∀ sp ∈ s.db.spaces.rows, sp.id = spaceId → s.cache (sp.name, userId) = none
  | _ => True

theorem lookupSpace_eq_some {db : Db} {name : String} {sp : Space} :
    lookupSpace db name = some sp ↔ sp ∈ db.spaces.rows ∧ sp.name = name :=
  db.spaces.byKey_eq_some

/-- The space that a role comes from, and its row. -/
theorem currentRole_eq_some {db : Db} {name userId : String} {r : Role} :
    currentRole db name userId = some r ↔
      ∃ sp ∈ db.spaces.rows, sp.name = name ∧ lookupRole db sp.id userId = some r := by
  rw [currentRole, Option.bind_eq_some_iff]
  refine exists_congr fun sp => ?_
  rw [lookupSpace_eq_some, and_assoc]

/-- A call that leaves the spaces and their roles there leaves the cache right. -/
theorem Mirrors.mono {db db' : Db} {cache : RoleCache} (h : Mirrors db cache)
    (hrows : ∀ sp ∈ db.spaces.rows, sp ∈ db'.spaces.rows)
    (hroles : ∀ sp ∈ db.spaces.rows, ∀ userId,
      db'.roles.lookup (sp.id, userId) = db.roles.lookup (sp.id, userId)) : Mirrors db' cache := by
  intro name userId r hcache
  obtain ⟨sp, hsp, hname, hrole⟩ := currentRole_eq_some.mp (h name userId r hcache)
  refine currentRole_eq_some.mpr ⟨sp, hrows sp hsp, hname, ?_⟩
  rw [lookupRole, hroles sp hsp, ← lookupRole, hrole]

theorem insertSpace_ok {db db' : Db} {now id : ℤ} {name owner : String}
    (h : insertSpace db now name owner = .ok (db', id)) :
    id = db.spaces.seq + 1 ∧ db'.roles = db.roles ∧
      db'.spaces.rows = db.spaces.rows ++ [⟨id, name, owner, now⟩] := by
  rw [insertSpace] at h
  split at h
  next => cases h
  next =>
    split at h
    next =>
      cases h
      exact ⟨rfl, rfl, rfl⟩
    next => cases h

/-- A new space has an id that no role refers to by a name. -/
theorem Mirrors.createSpace {db : Db} {cache : RoleCache} (h : Mirrors db cache) (now : ℤ)
    (name owner : String) : Mirrors (createSpace db now name owner).1 cache := by
  rw [Rbac.createSpace]
  cases hinsert : insertSpace db now name owner with
  | error e => exact h
  | ok r =>
    obtain ⟨db', id⟩ := r
    obtain ⟨hid, hroles, hspaces⟩ := insertSpace_ok hinsert
    have hrows : ∀ sp ∈ db.spaces.rows, sp ∈ db'.spaces.rows := by
      intro sp hsp
      rw [hspaces]
      exact List.mem_append_left _ hsp
    simp only
    split
    · exact h.mono hrows fun sp _ userId => by rw [hroles]
    · refine h.mono hrows fun sp hsp userId => ?_
      have hle : sp.id ≤ db.spaces.seq := db.spaces.le_seq sp hsp
      have hne : (sp.id, userId) ≠ (id, owner) := fun heq => by
        have := congrArg Prod.fst heq
        simp only at this
        omega
      rw [AList.lookup_insert_ne hne, hroles]

theorem Mirrors.enforceCached {db : Db} {cache : RoleCache} (h : Mirrors db cache)
    (spaceName userId : String) (perm : Permission) :
    Mirrors db (enforceCached db cache spaceName userId perm).2 := by
  cases hcache : cache (spaceName, userId) with
  | some r =>
    rw [Rbac.enforceCached, hcache]
    exact h
  | none =>
    rw [enforceCached_of_miss hcache]
    cases hrole : currentRole db spaceName userId with
    | none => exact h
    | some r =>
      intro name user r' hr'
      change Function.update cache (spaceName, userId) (some r) (name, user) = some r' at hr'
      by_cases hkey : (name, user) = (spaceName, userId)
      · cases hkey
        rw [Function.update_self] at hr'
        rw [hrole, hr']
      · rw [Function.update_of_ne hkey] at hr'
        exact h name user r' hr'

/-- When a grant does. -/
theorem mirrors_grantRole_iff {db : Db} {cache : RoleCache} (h : Mirrors db cache)
    {now spaceId : ℤ} {userId grantedBy : String} {role : Role} :
    Mirrors (grantRole db now spaceId userId role grantedBy).1 cache ↔
      ∀ sp ∈ db.spaces.rows, sp.id = spaceId → ∀ r ∈ cache (sp.name, userId), r = role := by
  rw [grantRole]
  split
  next =>
    refine ⟨?_, ?_⟩
    · intro hmirrors sp hsp hid r hr
      obtain ⟨sp', hsp', hname, hrole⟩ := currentRole_eq_some.mp (hmirrors _ _ r hr)
      obtain rfl : sp' = sp := db.spaces.eq_of_key hsp' hsp hname
      rw [lookupRole, hid, AList.lookup_insert, Option.bind_some, Role.fromStr_asStr] at hrole
      exact (Option.some.inj hrole).symm
    · intro hsame name user r hr
      obtain ⟨sp, hsp, rfl, hrole⟩ := currentRole_eq_some.mp (h name user r hr)
      refine currentRole_eq_some.mpr ⟨sp, hsp, rfl, ?_⟩
      by_cases hkey : (sp.id, user) = (spaceId, userId)
      · obtain ⟨hid, rfl⟩ := Prod.mk.inj hkey
        rw [lookupRole, hid, AList.lookup_insert, Option.bind_some, Role.fromStr_asStr,
          hsame sp hsp hid r hr]
      · rw [lookupRole, AList.lookup_insert_ne hkey]
        exact hrole
  next hrefused =>
    -- no space has the id
    refine iff_of_true h fun sp hsp hid => absurd (fun _ => ⟨sp, hsp, hid⟩) hrefused

/-- When a revocation does. -/
theorem mirrors_revokeRole_iff {db : Db} {cache : RoleCache} (h : Mirrors db cache)
    {spaceId : ℤ} {userId : String} :
    Mirrors (revokeRole db spaceId userId) cache ↔
      ∀ sp ∈ db.spaces.rows, sp.id = spaceId → cache (sp.name, userId) = none := by
  refine ⟨?_, ?_⟩
  · intro hmirrors sp hsp hid
    cases hr : cache (sp.name, userId) with
    | none => rfl
    | some r =>
      obtain ⟨sp', hsp', hname, hrole⟩ := currentRole_eq_some.mp (hmirrors _ _ r hr)
      obtain rfl : sp' = sp := db.spaces.eq_of_key hsp' hsp hname
      rw [lookupRole, revokeRole, hid, AList.lookup_erase] at hrole
      cases hrole
  · intro hnone name user r hr
    obtain ⟨sp, hsp, rfl, hrole⟩ := currentRole_eq_some.mp (h name user r hr)
    refine currentRole_eq_some.mpr ⟨sp, hsp, rfl, ?_⟩
    have hkey : (sp.id, user) ≠ (spaceId, userId) := by
      intro hkey
      obtain ⟨hid, rfl⟩ := Prod.mk.inj hkey
      rw [hnone sp hsp hid] at hr
      cases hr
    rw [lookupRole, revokeRole, AList.lookup_erase_ne hkey]
    exact hrole

/-- A call keeps the cache right exactly if it changes no cached role. -/
theorem mirrors_step_iff {s s' : State} {a : Action} (h : Mirrors s.db s.cache)
    (hstep : s.step a = some s') : Mirrors s'.db s'.cache ↔ Untouched s a := by
  obtain rfl := Option.some.inj hstep
  cases a with
  | createSpace now name owner => exact iff_of_true (h.createSpace now name owner) trivial
  | grantRole now spaceId userId role grantedBy => exact mirrors_grantRole_iff h
  | revokeRole spaceId userId => exact mirrors_revokeRole_iff h
  | enforceCached spaceName userId perm =>
    exact iff_of_true (h.enforceCached spaceName userId perm) trivial

/-- In a run from a new cache, `enforce_cached` would answer every call at every moment as `enforce`
does if and only if no call of the run changes or revokes a role that is cached. -/
theorem cached_agrees_iff (db : Db) (as : List Action) :
    Along State.step (fun s => Agrees s.db s.cache) ⟨db, RoleCache.new⟩ as ↔
      Meets State.step Untouched ⟨db, RoleCache.new⟩ as := by
  have hagrees : (fun s : State => Agrees s.db s.cache) = fun s => Mirrors s.db s.cache :=
    funext fun s => propext agrees_iff
  have hnew : Mirrors db RoleCache.new := fun _ _ _ h => nomatch h
  rw [hagrees]
  exact along_iff_meets (fun _ => True) _ (fun _ _ _ _ _ => trivial)
    (fun s a s' _ h (_ : True) hstep => mirrors_step_iff h hstep)
    (run_total State.after _ as) (Meets.of_forall fun _ _ => trivial) trivial hnew

/-- Bob edits, and then his role is revoked. -/
def editAndRevoke : List Action :=
  [.createSpace 0 "acme" "alice", .grantRole 1 1 "bob" .editor "alice",
    .enforceCached "acme" "bob" .write, .revokeRole 1 "bob"]

/-- The revoked role is honoured. -/
theorem editAndRevoke_honoured :
    ∃ s, run State.step ⟨Db.new true, RoleCache.new⟩ editAndRevoke = some s ∧
      enforce s.db "acme" "bob" .write = .error (.denied .write "acme" none) ∧
      (enforceCached s.db s.cache "acme" "bob" .write).1 = .ok () :=
  ⟨_, rfl, by decide +kernel, by decide +kernel⟩

end SynapseMemory.Rbac
