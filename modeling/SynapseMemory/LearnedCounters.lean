import Mathlib

/-!
# Learned counters

The wins and losses that `synapse-learn` keeps for shards, kinds of memories and routes: three
tables of one shape, with a row for each key that had an outcome. An outcome is written by one
statement, which inserts a row or, if there is one, adds to it.

What is read of a key without a row is `(1, 1)`. The row that is inserted is `(1, 1)` as well,
whatever the outcome was. So the first outcome of a key is not counted (`readBack_run`), and which
one is the first is a matter of the order.
-/

namespace SynapseMemory.Learn

/-! ## The tables -/

/-- A row of one of the three tables of counters. -/
structure Counter where
  key : String
  wins : ℕ
  losses : ℕ
  deriving DecidableEq, Repr

/-- `wins=wins+1` or `losses=losses+1` -/
def Counter.add (r : Counter) (hit : Bool) : Counter :=
  if hit then { r with wins := r.wins + 1 } else { r with losses := r.losses + 1 }

@[simp] theorem Counter.add_key (r : Counter) (hit : Bool) : (r.add hit).key = r.key := by
  cases hit <;> rfl

/-- A table of counters, with at most one row for a key. -/
structure CounterTable where
  rows : List Counter
  keys_nodup : (rows.map Counter.key).Nodup

namespace CounterTable

/-- The table without rows. -/
def empty : CounterTable := ⟨[], List.nodup_nil⟩

/-- The row of a key. -/
def find (t : CounterTable) (key : String) : Option Counter := t.rows.find? (·.key == key)

/-- The row of a key is added to. -/
def modify (t : CounterTable) (key : String) (hit : Bool) : List Counter :=
  t.rows.map fun r => if r.key = key then r.add hit else r

/-- An update of a row keeps the keys. -/
theorem modify_keys (t : CounterTable) (key : String) (hit : Bool) :
    (t.modify key hit).map Counter.key = t.rows.map Counter.key := by
  rw [modify, List.map_map]
  refine List.map_congr_left fun r _ => ?_
  rw [Function.comp_apply]
  split
  next => exact r.add_key hit
  next => rfl

theorem find_eq_none {t : CounterTable} {key : String} :
    t.find key = none ↔ key ∉ t.rows.map Counter.key := by
  simp [find, List.find?_eq_none]

/-- `INSERT … VALUES(?1,1,1) ON CONFLICT DO UPDATE` -/
def record (t : CounterTable) (key : String) (hit : Bool) : CounterTable :=
  match hfind : t.find key with
  | some _ => ⟨t.modify key hit, by rw [modify_keys]; exact t.keys_nodup⟩
  | none =>
    ⟨t.rows ++ [⟨key, 1, 1⟩], by
      rw [List.map_append]
      refine List.nodup_append.mpr ⟨t.keys_nodup, List.nodup_singleton _, ?_⟩
      rintro a ha b hb rfl
      have hkey : a = key := List.mem_singleton.mp hb
      exact find_eq_none.mp hfind (hkey ▸ ha)⟩

/-- The wins and losses of a key; without a row they are the defaults of the columns. -/
def readBack (t : CounterTable) (key : String) : ℕ × ℕ :=
  match t.find key with
  | some r => (r.wins, r.losses)
  | none => (1, 1)

theorem find_key {t : CounterTable} {key : String} {r : Counter} (h : t.find key = some r) :
    r.key = key := by
  have hfound : t.rows.find? (·.key == key) = some r := h
  have hbeq := List.find?_some hfound
  exact eq_of_beq hbeq

/-- After an update the row of the key has one outcome more, and the others stay. -/
theorem find_modify (t : CounterTable) (key : String) (hit : Bool) (key' : String) :
    (t.modify key hit).find? (·.key == key') =
      (t.find key').map fun r => if r.key = key then r.add hit else r := by
  rw [modify, List.find?_map, find]
  refine congrArg _ (congrArg (List.find? · _) (funext fun r => ?_))
  rw [Function.comp_apply]
  split
  next => rw [r.add_key]
  next => rfl

/-- An outcome is written to its own row. -/
theorem find_record_of_ne (t : CounterTable) {key key' : String} (hit : Bool) (hne : key' ≠ key) :
    (t.record key hit).find key' = t.find key' := by
  rw [record]
  split
  next =>
    refine (t.find_modify key hit key').trans ?_
    cases hfind : t.find key' with
    | none => rfl
    | some r =>
      rw [Option.map_some, if_neg]
      rw [find_key hfind]
      exact hne
  next =>
    rw [find, List.find?_append, ← find]
    simp [hne.symm]

/-- The first outcome of a key is not counted. Its row begins with one of each. -/
theorem find_record_self (t : CounterTable) (key : String) (hit : Bool) :
    (t.record key hit).find key =
      some (match t.find key with
        | some r => r.add hit
        | none => ⟨key, 1, 1⟩) := by
  rw [record]
  split
  next r hfind =>
    refine (t.find_modify key hit key).trans ?_
    rw [hfind, Option.map_some, if_pos (find_key hfind)]
  next hfind =>
    rw [find, List.find?_append, ← find, hfind]
    simp

end CounterTable

/-- Which counters. -/
inductive Learned where
  | bandit
  | memoryType
  | route
  deriving DecidableEq, Repr

/-- The three tables that outcomes are counted in. -/
structure LearnStore where
  learnBandit : CounterTable
  memoryTypeReward : CounterTable
  routeReward : CounterTable

namespace LearnStore

/-- The tables of a new database. -/
def empty : LearnStore := ⟨.empty, .empty, .empty⟩

/-- The table of each sort of counters. -/
def table (s : LearnStore) : Learned → CounterTable
  | .bandit => s.learnBandit
  | .memoryType => s.memoryTypeReward
  | .route => s.routeReward

/-- `update_bandit` -/
def updateBandit (s : LearnStore) (shardId : String) (hit : Bool) : LearnStore :=
  { s with learnBandit := s.learnBandit.record shardId hit }

/-- `update_memory_type_reward` -/
def updateMemoryTypeReward (s : LearnStore) (kind : String) (hit : Bool) : LearnStore :=
  { s with memoryTypeReward := s.memoryTypeReward.record kind hit }

/-- `update_route_reward` -/
def updateRouteReward (s : LearnStore) (route : String) (hit : Bool) : LearnStore :=
  { s with routeReward := s.routeReward.record route hit }

/-- The counts as integers of 32 bits, or an error if they do not fit. -/
def getBanditPrior (s : LearnStore) (shardId : String) : Except String (ℕ × ℕ) :=
  let prior := s.learnBandit.readBack shardId
  if prior.1 < 2 ^ 32 ∧ prior.2 < 2 ^ 32 then .ok prior else .error "IntegralValueOutOfRange"

/-- What is read back of the counters of a key. -/
def prior (s : LearnStore) (counters : Learned) (key : String) : Except String (ℕ × ℕ) :=
  match counters with
  | .bandit => s.getBanditPrior key
  | .memoryType => .ok (s.memoryTypeReward.readBack key)
  | .route => .ok (s.routeReward.readBack key)

end LearnStore

/-- A call that records an outcome. -/
structure Call where
  counters : Learned
  key : String
  hit : Bool
  deriving DecidableEq, Repr

/-- The update that a call makes. -/
def Call.run (s : LearnStore) (c : Call) : LearnStore :=
  match c.counters with
  | .bandit => s.updateBandit c.key c.hit
  | .memoryType => s.updateMemoryTypeReward c.key c.hit
  | .route => s.updateRouteReward c.key c.hit

/-- The tables after the calls, from a new database on. -/
def run (calls : List Call) : LearnStore := calls.foldl Call.run .empty

/-- What happened to a key, in the order of the calls. -/
def outcomes (calls : List Call) (counters : Learned) (key : String) : List Bool :=
  (calls.filter fun c => c.counters = counters ∧ c.key = key).map Call.hit

/-! ## Runs -/

theorem Call.table_run (s : LearnStore) (c : Call) (counters : Learned) :
    (c.run s).table counters =
      if c.counters = counters then (s.table counters).record c.key c.hit
      else s.table counters := by
  obtain ⟨written, key, hit⟩ := c
  cases written <;> cases counters <;> rfl

/-- The outcomes after one more call. -/
theorem outcomes_concat (calls : List Call) (c : Call) (counters : Learned) (key : String) :
    outcomes (calls ++ [c]) counters key = outcomes calls counters key ++
      if c.counters = counters ∧ c.key = key then [c.hit] else [] := by
  rw [outcomes, List.filter_append, List.map_append, ← outcomes]
  by_cases h : c.counters = counters ∧ c.key = key
  · simp [h]
  · have hnone : ∀ x ∈ [c], ¬decide (x.counters = counters ∧ x.key = key) = true := fun x hx => by
      simpa [List.mem_singleton.mp hx] using h
    rw [if_neg h, List.filter_eq_nil_iff.mpr hnone]
    rfl

/-- The row of a key, after its outcomes. -/
def rowAfter (key : String) : List Bool → Option Counter
  | [] => none
  | _ :: later => some ⟨key, 1 + later.count true, 1 + later.count false⟩

/-- The row after one more outcome. -/
theorem rowAfter_concat (key : String) (past : List Bool) (hit : Bool) :
    rowAfter key (past ++ [hit]) =
      some (match rowAfter key past with
        | some r => r.add hit
        | none => ⟨key, 1, 1⟩) := by
  cases past with
  | nil => simp [rowAfter]
  | cons first later =>
    rw [List.cons_append, rowAfter, rowAfter, List.count_append, List.count_append]
    cases hit <;> simp [Counter.add, Nat.add_assoc]

/-- **The row of a key after any calls.** Its first outcome makes the row and is not counted. -/
theorem find_run (calls : List Call) (counters : Learned) (key : String) :
    ((run calls).table counters).find key = rowAfter key (outcomes calls counters key) := by
  induction calls using List.reverseRecOn with
  | nil => cases counters <;> rfl
  | append_singleton calls c ih =>
    rw [run, List.foldl_append, ← run, List.foldl_cons, List.foldl_nil, Call.table_run,
      outcomes_concat]
    by_cases hcounters : c.counters = counters
    · by_cases hkey : c.key = key
      · rw [if_pos hcounters, if_pos ⟨hcounters, hkey⟩, rowAfter_concat, ← ih, ← hkey,
          CounterTable.find_record_self]
      · rw [if_pos hcounters, if_neg fun h => hkey h.2, List.append_nil, ← ih,
          CounterTable.find_record_of_ne _ _ fun h => hkey h.symm]
    · rw [if_neg hcounters, if_neg fun h => hcounters h.1, List.append_nil, ih]

/-- What is read back is what was recorded, but for the first outcome. -/
theorem readBack_run (calls : List Call) (counters : Learned) (key : String) :
    ((run calls).table counters).readBack key =
      (1 + (outcomes calls counters key).tail.count true,
        1 + (outcomes calls counters key).tail.count false) := by
  rw [CounterTable.readBack, find_run]
  cases outcomes calls counters key <;> rfl

theorem prior_eq_ok {s : LearnStore} {counters : Learned} {key : String} {counts : ℕ × ℕ}
    (h : s.prior counters key = .ok counts) : (s.table counters).readBack key = counts := by
  cases counters with
  | bandit =>
    simp only [LearnStore.prior, LearnStore.getBanditPrior] at h
    split at h
    next => exact Except.ok.inj h
    next => cases h
  | memoryType => exact Except.ok.inj h
  | route => exact Except.ok.inj h

/-- Small counts are read as they are. -/
theorem prior_of_small {s : LearnStore} {counters : Learned} {key : String} {counts : ℕ × ℕ}
    (h : (s.table counters).readBack key = counts)
    (hsmall : counts.1 < 2 ^ 32 ∧ counts.2 < 2 ^ 32) : s.prior counters key = .ok counts := by
  subst h
  cases counters with
  | bandit => exact if_pos hsmall
  | memoryType => rfl
  | route => rfl

/-- **What is counted.** The prior of a key has all its outcomes in it just if there are none. -/
theorem prior_counted_iff (calls : List Call) (counters : Learned) (key : String) :
    (run calls).prior counters key =
        .ok (1 + (outcomes calls counters key).count true,
          1 + (outcomes calls counters key).count false) ↔
      outcomes calls counters key = [] := by
  constructor
  · intro h
    have hread := (readBack_run calls counters key).symm.trans (prior_eq_ok h)
    rw [Prod.mk.injEq] at hread
    cases hpast : outcomes calls counters key with
    | nil => rfl
    | cons first later =>
      rw [hpast, List.tail_cons] at hread
      -- the first outcome is in one of the two counts
      cases first <;> simp at hread
  · intro h
    have hread := readBack_run calls counters key
    rw [h] at hread ⊢
    exact prior_of_small hread (by decide)

/-- The first outcome of a shard is a hit. -/
theorem first_hit_not_counted :
    ¬∀ (calls : List Call) (counters : Learned) (key : String),
      (run calls).prior counters key =
        .ok (1 + (outcomes calls counters key).count true,
          1 + (outcomes calls counters key).count false) := by
  intro h
  have hfirst := prior_eq_ok (h [⟨.bandit, "s", true⟩] .bandit "s")
  rw [readBack_run] at hfirst
  revert hfirst
  decide

end SynapseMemory.Learn
