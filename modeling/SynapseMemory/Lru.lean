import Mathlib

/-!
# Least-recently-used caches

A map and the list of its keys, the one used last at the end. The list has exactly the keys of the
map, each of them once; this is a field of the cache. The map is a list of pairs whose order means
nothing.

What the rest of a development uses is membership: a pair of a cache that was read or written is a
pair it had before, or the one that was put.
-/

/-- A map with the order in which its keys were used. -/
structure Lru (κ ν : Type*) [DecidableEq κ] where
  inner : List (κ × ν)
  order : List κ
  nodup : order.Nodup
  order_perm : order.Perm (inner.map Prod.fst)

namespace Lru

variable {κ ν : Type*} [DecidableEq κ]

/-- The cache without entries. -/
def empty : Lru κ ν where
  inner := []
  order := []
  nodup := List.nodup_nil
  order_perm := List.Perm.nil

/-- The value of a key. -/
def lookup (c : Lru κ ν) (k : κ) : Option ν := (c.inner.find? (·.1 = k)).map Prod.snd

theorem mem_of_lookup {c : Lru κ ν} {k : κ} {v : ν} (h : c.lookup k = some v) :
    (k, v) ∈ c.inner := by
  obtain ⟨⟨k', v'⟩, hfind, rfl⟩ := Option.map_eq_some_iff.mp h
  have hkey : k' = k := by simpa using List.find?_some hfind
  exact hkey ▸ List.mem_of_find?_eq_some hfind

/-- Remove a key. -/
def erase (c : Lru κ ν) (k : κ) : Lru κ ν where
  inner := c.inner.filter (·.1 ≠ k)
  order := c.order.filter (· ≠ k)
  nodup := c.nodup.filter _
  order_perm := by
    have := c.order_perm.filter (· ≠ k)
    rwa [List.filter_map] at this

theorem mem_erase {c : Lru κ ν} {k : κ} {p : κ × ν} (h : p ∈ (c.erase k).inner) : p ∈ c.inner :=
  List.mem_of_mem_filter h

theorem not_mem_erase (c : Lru κ ν) (k : κ) : k ∉ (c.erase k).order := by
  simp [erase]

/-- Add a key that is not there, as the one used last. -/
def push (c : Lru κ ν) (k : κ) (v : ν) (h : k ∉ c.order) : Lru κ ν where
  inner := c.inner ++ [(k, v)]
  order := c.order ++ [k]
  nodup := by
    refine c.nodup.append (List.nodup_singleton k) ?_
    intro x hx hxk
    exact h (List.mem_singleton.mp hxk ▸ hx)
  order_perm := by
    rw [List.map_append]
    exact c.order_perm.append_right [k]

/-- Set a key, as the one used last. -/
def set (c : Lru κ ν) (k : κ) (v : ν) : Lru κ ν := (c.erase k).push k v (c.not_mem_erase k)

/-- Setting a key adds that entry only. -/
theorem mem_set {c : Lru κ ν} {k : κ} {v : ν} {p : κ × ν} (h : p ∈ (c.set k v).inner) :
    p = (k, v) ∨ p ∈ c.inner := by
  rcases List.mem_append.mp h with h | h
  · exact .inr (mem_erase h)
  · exact .inl (List.mem_singleton.mp h)

/-- Make room for a new key: a full cache loses the key that was not used for longest. -/
def evict (c : Lru κ ν) (cap : ℕ) (k : κ) : Lru κ ν :=
  if cap ≤ c.inner.length ∧ k ∉ c.order then
    match c.order with
    | old :: _ => c.erase old
    | [] => c
  else c

/-- Evicting adds nothing. -/
theorem mem_evict {c : Lru κ ν} {cap : ℕ} {k : κ} {p : κ × ν} (h : p ∈ (c.evict cap k).inner) :
    p ∈ c.inner := by
  rw [evict] at h
  split at h
  next =>
    split at h
    next => exact mem_erase h
    next => exact h
  next => exact h

/-- `put`: the oldest entry goes if the cache is full. -/
def put (c : Lru κ ν) (cap : ℕ) (k : κ) (v : ν) : Lru κ ν := (c.evict cap k).set k v

/-- A put adds one entry only. -/
theorem mem_put {c : Lru κ ν} {cap : ℕ} {k : κ} {v : ν} {p : κ × ν}
    (h : p ∈ (c.put cap k v).inner) : p = (k, v) ∨ p ∈ c.inner := by
  rcases mem_set h with h | h
  · exact .inl h
  · exact .inr (mem_evict h)

/-- Read a key. A value that is not fresh any more is removed, and not returned. -/
def get (c : Lru κ ν) (fresh : ν → Bool) (k : κ) : Lru κ ν × Option ν :=
  match c.lookup k with
  | some v => if fresh v then (c.set k v, some v) else (c.erase k, none)
  | none => (c, none)

/-- A get adds nothing. -/
theorem mem_get {c : Lru κ ν} {fresh : ν → Bool} {k : κ} {p : κ × ν}
    (h : p ∈ (c.get fresh k).1.inner) : p ∈ c.inner := by
  rw [get] at h
  split at h
  next v hlookup =>
    split at h
    next =>
      rcases mem_set h with rfl | h
      · exact mem_of_lookup hlookup
      · exact h
    next => exact mem_erase h
  next => exact h

/-- A value that is got is in the cache, and fresh. -/
theorem get_eq_some {c : Lru κ ν} {fresh : ν → Bool} {k : κ} {v : ν}
    (h : (c.get fresh k).2 = some v) : c.lookup k = some v ∧ fresh v = true := by
  rw [get] at h
  split at h
  next v' hlookup =>
    split at h
    next hfresh =>
      obtain rfl := Option.some.inj h
      exact ⟨hlookup, hfresh⟩
    next => cases h
  next => cases h

end Lru
