import Mathlib

/-!
# Locks held in scopes

A task takes locks through guards whose scopes nest. Its program is therefore a **scoped**
program: hold a lock over a body, then go on. Flattened, it is a list of acquire and release
actions, and a system runs one such list per task in any interleaving, an acquire waiting until
the lock is free (or held by readers only, when a reader asks).

A program **nests** `b` under `a` when it acquires `b` while it holds `a`. The two facts here:

* when the nestings of all programs admit no infinite ascent, no set of tasks ever waits for
  locks held inside the set (`not_deadlocked`);
* a task that nests a lock under itself can block itself with nobody's help
  (`exists_deadlocked_of_reacquire`).
-/

namespace LockOrder

/-- How a lock is asked for: alone, or along with other readers. -/
inductive Mode where
  | exclusive
  | shared
  deriving DecidableEq

/-- What a task does to the locks. -/
inductive Action (L : Type*) where
  | acquire (l : L) (m : Mode)
  | release (l : L)

/-! ## Scoped programs -/

/-- A program whose guards live in nested scopes. -/
inductive Scoped (L : Type*) where
  | done
  | hold (l : L) (m : Mode) (body next : Scoped L)

namespace Scoped

variable {L : Type*}

/-- One program after the other. -/
def seq : Scoped L → Scoped L → Scoped L
  | done, q => q
  | hold l m body next, q => hold l m body (seq next q)

instance : Append (Scoped L) := ⟨seq⟩

/-- Hold a mutex over a body. -/
def locked (l : L) (body : Scoped L) : Scoped L := hold l .exclusive body done

/-- Hold a lock as a reader. -/
def reading (l : L) (body : Scoped L) : Scoped L := hold l .shared body done

/-- A loop, pass after pass. -/
def concat (ps : List (Scoped L)) : Scoped L := ps.foldr (· ++ ·) done

/-- The lock actions in order. -/
def actions : Scoped L → List (Action L)
  | done => []
  | hold l m body next => .acquire l m :: (actions body ++ .release l :: actions next)

/-- The pairs `(a, b)` such that `b` is acquired while `a` is held, `held` being held already. -/
def nests (held : List L) : Scoped L → List (L × L)
  | done => []
  | hold l _ body next => held.map (·, l) ++ nests (l :: held) body ++ nests held next

@[simp] theorem nests_done (held : List L) : nests held (done : Scoped L) = [] := rfl

@[simp] theorem nests_append (held : List L) (p q : Scoped L) :
    nests held (p ++ q) = nests held p ++ nests held q := by
  change nests held (seq p q) = _
  induction p with
  | done => rfl
  | hold l m body next _ ih => simp [seq, nests, ih]

/-- The nested locks of a scope: those that it is taken in, and those of its body. -/
@[simp] theorem nests_locked (held : List L) (l : L) (body : Scoped L) :
    nests held (locked l body) = held.map (·, l) ++ nests (l :: held) body := by
  simp [locked, nests]

@[simp] theorem nests_concat (held : List L) (ps : List (Scoped L)) :
    nests held (concat ps) = ps.flatMap (nests held) := by
  induction ps with
  | nil => rfl
  | cons p rest ih =>
    change nests held (p ++ concat rest) = _
    rw [nests_append, ih, List.flatMap_cons]

/-- Every nesting of the program respects `R`, `held` being held already. -/
def Respects (R : L → L → Prop) (held : List L) (p : Scoped L) : Prop :=
  ∀ n ∈ nests held p, R n.1 n.2

section Respects

variable {R : L → L → Prop} {held : List L}

@[simp] theorem respects_done : Respects R held (done : Scoped L) := by
  simp [Respects]

@[simp] theorem respects_append {p q : Scoped L} :
    Respects R held (p ++ q) ↔ Respects R held p ∧ Respects R held q := by
  simp only [Respects, nests_append, List.mem_append]
  exact ⟨fun h => ⟨fun n hn => h n (.inl hn), fun n hn => h n (.inr hn)⟩,
    fun h n hn => hn.elim (h.1 n) (h.2 n)⟩

/-- A scope respects the order if its lock comes after those that are held. -/
@[simp] theorem respects_locked {l : L} {body : Scoped L} :
    Respects R held (locked l body) ↔ (∀ h ∈ held, R h l) ∧ Respects R (l :: held) body := by
  simp only [Respects, nests_locked, List.mem_append, List.mem_map]
  constructor
  · intro h
    exact ⟨fun a ha => h (a, l) (.inl ⟨a, ha, rfl⟩), fun n hn => h n (.inr hn)⟩
  · rintro ⟨hheld, hbody⟩ n (⟨a, ha, rfl⟩ | hn)
    · exact hheld a ha
    · exact hbody n hn

@[simp] theorem respects_reading {l : L} {body : Scoped L} :
    Respects R held (reading l body) ↔ (∀ h ∈ held, R h l) ∧ Respects R (l :: held) body :=
  respects_locked

@[simp] theorem respects_concat {ps : List (Scoped L)} :
    Respects R held (concat ps) ↔ ∀ p ∈ ps, Respects R held p := by
  simp only [Respects, nests_concat, List.mem_flatMap]
  exact ⟨fun h p hp n hn => h n ⟨p, hp, hn⟩, fun h n ⟨p, hp, hn⟩ => h p hp n hn⟩

end Respects

end Scoped

/-! ## Running tasks -/

variable {L ι : Type*}

/-- A task: the locks it holds, innermost first, and what it has still to do. -/
structure Task (L : Type*) where
  held : List (L × Mode)
  rest : List (Action L)

/-- The locks a task holds, whatever the mode. -/
def Task.locks (t : Task L) : List L := t.held.map Prod.fst

/-- The lock may be granted: nobody holds it, or readers only and a reader asks. -/
def Free (s : ι → Task L) (l : L) (m : Mode) : Prop :=
  ∀ j, ∀ g ∈ (s j).held, g.1 = l → m = .shared ∧ g.2 = .shared

section System

variable [DecidableEq L] [DecidableEq ι]

/-- One task makes one step. -/
inductive Step (s : ι → Task L) : (ι → Task L) → Prop
  | acquire (i : ι) (l : L) (m : Mode) (rest : List (Action L))
      (hrest : (s i).rest = .acquire l m :: rest) (hfree : Free s l m) :
      Step s (Function.update s i ⟨(l, m) :: (s i).held, rest⟩)
  | release (i : ι) (l : L) (rest : List (Action L)) (hrest : (s i).rest = .release l :: rest) :
      Step s (Function.update s i ⟨(s i).held.eraseP (fun g => g.1 = l), rest⟩)

/-- Every task at the start of its program. -/
def initial (programs : ι → List (Action L)) : ι → Task L := fun i => ⟨[], programs i⟩

/-- A state that some interleaving reaches. -/
def Reachable (programs : ι → List (Action L)) (s : ι → Task L) : Prop :=
  Relation.ReflTransGen Step (initial programs) s

/-- A set of tasks is deadlocked: each of them waits for a lock that one of them holds. -/
def Deadlocked (s : ι → Task L) : Prop :=
  ∃ S : Set ι, S.Nonempty ∧ ∀ i ∈ S, ∃ l m rest, (s i).rest = .acquire l m :: rest ∧
    ∃ j ∈ S, l ∈ (s j).locks

/-- The nestings that a list of actions still has ahead. -/
def ahead : List L → List (Action L) → List (L × L)
  | _, [] => []
  | held, .acquire l _ :: rest => held.map (·, l) ++ ahead (l :: held) rest
  | held, .release l :: rest => ahead (held.erase l) rest

/-- What is ahead of the actions of a program. -/
theorem ahead_actions (held : List L) (p : Scoped L) (rest : List (Action L)) :
    ahead held (p.actions ++ rest) = p.nests held ++ ahead held rest := by
  induction p generalizing held rest with
  | done => rfl
  | hold l m body next ihb ihn =>
    simp only [Scoped.actions, Scoped.nests, List.cons_append, List.append_assoc, ahead, ihb, ihn,
      List.erase_cons_head]

theorem map_fst_eraseP (held : List (L × Mode)) (l : L) :
    (held.eraseP (fun g => g.1 = l)).map Prod.fst = (held.map Prod.fst).erase l := by
  induction held with
  | nil => rfl
  | cons g rest ih =>
    by_cases hg : g.1 = l
    · simp [hg]
    · rw [List.eraseP_cons_of_neg (by simpa using hg), List.map_cons, List.map_cons,
        List.erase_cons_tail (by simpa using hg), ih]

/-- **One step** leaves no nesting ahead that was not ahead before. -/
theorem Step.ahead_subset {s s' : ι → Task L} (h : Step s s') (i : ι) :
    ahead (s' i).locks (s' i).rest ⊆ ahead (s i).locks (s i).rest := by
  cases h with
  | acquire j l m rest hrest hfree =>
    by_cases hij : i = j
    · subst hij
      rw [hrest, Function.update_self]
      exact List.subset_append_right _ _
    · rw [Function.update_of_ne hij]
      exact List.Subset.refl _
  | release j l rest hrest =>
    by_cases hij : i = j
    · subst hij
      rw [hrest, Function.update_self, Task.locks, map_fst_eraseP]
      exact List.Subset.refl _
    · rw [Function.update_of_ne hij]
      exact List.Subset.refl _

/-- **Along a run** a task's nestings ahead are nestings of its program. -/
theorem Reachable.ahead_subset {programs : ι → List (Action L)} {s : ι → Task L}
    (h : Reachable programs s) (i : ι) :
    ahead (s i).locks (s i).rest ⊆ ahead [] (programs i) := by
  induction h with
  | refl => exact List.Subset.refl _
  | tail _ hstep ih => exact List.Subset.trans (hstep.ahead_subset i) ih

/-- **No deadlock**: nestings that cannot ascend forever leave no set of tasks waiting for
itself. -/
theorem not_deadlocked {R : L → L → Prop} (hwf : WellFounded (Function.swap R))
    {programs : ι → List (Action L)} (hR : ∀ i, ∀ n ∈ ahead [] (programs i), R n.1 n.2)
    {s : ι → Task L} (h : Reachable programs s) : ¬ Deadlocked s := by
  rintro ⟨S, ⟨i, hi⟩, hwait⟩
  -- follow the waits: the lock a task waits for is nested under one that its waiter awaits
  have hnone : ∀ l, ∀ i ∈ S, ¬ ∃ m rest, (s i).rest = .acquire l m :: rest := by
    intro l
    induction l using hwf.induction with
    | h l ih =>
      rintro i hi ⟨m, rest, hrest⟩
      obtain ⟨l', m', rest', hrest', j, hj, hheld⟩ := hwait i hi
      obtain ⟨⟨rfl, rfl⟩, rfl⟩ : (l = l' ∧ m = m') ∧ rest = rest' := by
        rw [hrest] at hrest'
        simpa using hrest'
      obtain ⟨l₂, m₂, rest₂, hrest₂, -⟩ := hwait j hj
      refine ih l₂ ?_ j hj ⟨m₂, rest₂, hrest₂⟩
      have hmem : (l, l₂) ∈ ahead (s j).locks (s j).rest := by
        rw [hrest₂]
        exact List.mem_append_left _ (List.mem_map.mpr ⟨l, hheld, rfl⟩)
      exact hR j _ (h.ahead_subset j hmem)
  obtain ⟨l, m, rest, hrest, -⟩ := hwait i hi
  exact hnone l i hi ⟨m, rest, hrest⟩

/-- A task that still re-acquires a lock it holds, all others holding nothing, can run alone
into a wait for itself. -/
theorem deadlocks_of_reacquire {l : L} (i : ι) (rest : List (Action L)) {s : ι → Task L}
    (hrest : (s i).rest = rest) (hidle : ∀ j, j ≠ i → (s j).held = [])
    (hre : (l, l) ∈ ahead (s i).locks rest) :
    ∃ s', Relation.ReflTransGen Step s s' ∧ Deadlocked s' := by
  induction rest generalizing s with
  | nil => simp [ahead] at hre
  | cons a rest ih =>
    cases a with
    | acquire l' m =>
      by_cases hheld : l' ∈ (s i).locks
      · refine ⟨s, .refl, {i}, ⟨i, rfl⟩, ?_⟩
        rintro _ rfl
        exact ⟨l', m, rest, hrest, _, rfl, hheld⟩
      · have hfree : Free s l' m := by
          rintro j g hg rfl
          by_cases hj : j = i
          · subst hj
            exact absurd (List.mem_map_of_mem hg) hheld
          · rw [hidle j hj] at hg
            cases hg
        have hstep := Step.acquire i l' m rest hrest hfree
        obtain ⟨s', hrun, hdead⟩ := ih (s := Function.update s i ⟨(l', m) :: (s i).held, rest⟩)
          (by simp) (fun j hj => by rw [Function.update_of_ne hj]; exact hidle j hj) (by
            rw [Function.update_self]
            rcases List.mem_append.mp hre with hmem | hmem
            · obtain ⟨a, ha, heq⟩ := List.mem_map.mp hmem
              obtain ⟨rfl, rfl⟩ := Prod.mk.inj heq
              exact absurd ha hheld
            · exact hmem)
        exact ⟨s', .head hstep hrun, hdead⟩
    | release l' =>
      have hstep := Step.release i l' rest hrest
      obtain ⟨s', hrun, hdead⟩ := ih
        (s := Function.update s i ⟨(s i).held.eraseP (fun g => g.1 = l'), rest⟩)
        (by simp) (fun j hj => by rw [Function.update_of_ne hj]; exact hidle j hj) (by
          rw [Function.update_self, Task.locks, map_fst_eraseP]
          exact hre)
      exact ⟨s', .head hstep hrun, hdead⟩

/-- **Self-deadlock**: a program that nests a lock under itself reaches a deadlock. -/
theorem exists_deadlocked_of_reacquire {programs : ι → List (Action L)} {l : L} (i : ι)
    (hre : (l, l) ∈ ahead [] (programs i)) :
    ∃ s, Reachable programs s ∧ Deadlocked s :=
  deadlocks_of_reacquire (s := initial programs) i (programs i) rfl (fun _ _ => rfl) hre

end System

end LockOrder
