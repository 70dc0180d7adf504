import Mathlib

/-!
# Calls that can panic

A call ends in a value, in an error that it returns, or in a panic. An error is a result that the
caller sees; a panic ends the caller too. An operation of a machine whose result has no room, and a
slice or an index out of range, is a panic.

What a call does not end in a panic is told from its steps: a chain of steps panics exactly if one
of them does where the ones before it have ended in values (`bind_eq_panic`).
-/

/-- What a call ends in. -/
inductive Outcome (ε α : Type) where
  | ok (a : α)
  | error (e : ε)
  | panic
  deriving DecidableEq

namespace Outcome

variable {ε α β : Type}

/-- What comes after an error or a panic is not run. -/
protected def bind (x : Outcome ε α) (f : α → Outcome ε β) : Outcome ε β :=
  match x with
  | .ok a => f a
  | .error e => .error e
  | .panic => .panic

instance : Monad (Outcome ε) where
  pure := .ok
  bind := Outcome.bind

/-- A call that cannot panic. -/
def ofExcept : Except ε α → Outcome ε α
  | .ok a => .ok a
  | .error e => .error e

/-- A call that returns an `Option` and cannot panic. -/
def ofOption : Option α → Outcome Unit α
  | some a => .ok a
  | none => .error ()

/-- Panic unless the condition holds. -/
def demand (p : Prop) [Decidable p] : Outcome ε Unit := if p then .ok () else .panic

/-- Return an error unless the condition holds. -/
def ensure (p : Prop) [Decidable p] (e : ε) : Outcome ε Unit := if p then .ok () else .error e

/-- `l[i]` -/
def get (l : List α) (i : ℕ) : Outcome ε α :=
  match l[i]? with
  | some a => .ok a
  | none => .panic

/-- `l[i..j]` -/
def slice (l : List α) (i j : ℕ) : Outcome ε (List α) := do
  demand (i ≤ j ∧ j ≤ l.length)
  .ok ((l.drop i).take (j - i))

/-- The result of an operation on signed numbers of so many bits. -/
def signed (bits : ℕ) (n : ℤ) : Outcome ε ℤ :=
  if -2 ^ (bits - 1) ≤ n ∧ n < 2 ^ (bits - 1) then .ok n else .panic

/-- The result of an operation on unsigned numbers of so many bits. -/
def unsigned (bits n : ℕ) : Outcome ε ℕ := if n < 2 ^ bits then .ok n else .panic

/-- Subtraction of unsigned numbers. -/
def minus (a b : ℕ) : Outcome ε ℕ := if b ≤ a then .ok (a - b) else .panic

/-- `n as i32`: a cast does not panic, it keeps the last bits. -/
def asI32 (n : ℕ) : ℤ := (BitVec.ofNat 32 n).toInt

/-- `n as i64` -/
def asI64 (n : ℕ) : ℤ := (BitVec.ofNat 64 n).toInt

/-! ## Steps -/

@[simp] theorem ok_bind (a : α) (f : α → Outcome ε β) : (Outcome.ok a >>= f) = f a := rfl

@[simp] theorem error_bind (e : ε) (f : α → Outcome ε β) :
    ((.error e : Outcome ε α) >>= f) = .error e := rfl

@[simp] theorem panic_bind (f : α → Outcome ε β) : ((.panic : Outcome ε α) >>= f) = .panic := rfl

@[simp] theorem pure_eq_ok (a : α) : (pure a : Outcome ε α) = .ok a := rfl

instance : LawfulMonad (Outcome ε) :=
  LawfulMonad.mk' (Outcome ε) (fun x => by cases x <;> rfl) (fun _ _ => rfl)
    (fun x _ _ => by cases x <;> rfl)

/-- When a sequence goes through. -/
theorem bind_eq_ok {x : Outcome ε α} {f : α → Outcome ε β} {b : β} :
    (x >>= f) = .ok b ↔ ∃ a, x = .ok a ∧ f a = .ok b := by
  cases x <;> simp

/-- **Where a chain panics.** -/
theorem bind_eq_panic {x : Outcome ε α} {f : α → Outcome ε β} :
    (x >>= f) = .panic ↔ x = .panic ∨ ∃ a, x = .ok a ∧ f a = .panic := by
  cases x <;> simp

theorem demand_of {p : Prop} [Decidable p] (h : p) : (demand p : Outcome ε Unit) = .ok () :=
  if_pos h

/-- A check goes through if it holds. -/
theorem ensure_eq_ok {p : Prop} [Decidable p] {e : ε} {u : Unit} : ensure p e = .ok u ↔ p := by
  rw [ensure]
  split
  next h => exact iff_of_true rfl h
  next h => exact iff_of_false nofun h

theorem ensure_of {p : Prop} [Decidable p] {e : ε} (h : p) : ensure p e = .ok () := if_pos h

@[simp] theorem ensure_ne_panic {p : Prop} [Decidable p] {e : ε} : ensure p e ≠ .panic := by
  rw [ensure]
  split <;> nofun

/-- What comes after a check may use what was checked. -/
theorem ensure_bind_congr {p : Prop} [Decidable p] {e : ε} {f g : Unit → Outcome ε α}
    (h : p → f () = g ()) : (ensure p e >>= f) = (ensure p e >>= g) := by
  rw [ensure]
  split
  next hp => exact h hp
  next => rfl

/-! ## Lists -/

theorem get_of_getElem? {l : List α} {i : ℕ} {a : α} (h : l[i]? = some a) :
    (get l i : Outcome ε α) = .ok a := by
  rw [get, h]

/-- When an element is there. -/
theorem get_eq_ok {l : List α} {i : ℕ} {a : α} : (get l i : Outcome ε α) = .ok a ↔
    l[i]? = some a := by
  rw [get]
  split <;> simp_all

theorem slice_of {l : List α} {i j : ℕ} (hij : i ≤ j) (hj : j ≤ l.length) :
    (slice l i j : Outcome ε (List α)) = .ok ((l.drop i).take (j - i)) := by
  rw [slice, demand_of ⟨hij, hj⟩]
  rfl

/-- To the end of the list. -/
theorem slice_length {l : List α} {i : ℕ} (h : i ≤ l.length) :
    (slice l i l.length : Outcome ε (List α)) = .ok (l.drop i) := by
  rw [slice_of h le_rfl, ← List.length_drop, List.take_length]

/-- When a slice is in bounds. -/
theorem slice_eq_ok {l m : List α} {i j : ℕ} :
    (slice l i j : Outcome ε (List α)) = .ok m ↔
      (i ≤ j ∧ j ≤ l.length) ∧ (l.drop i).take (j - i) = m := by
  rw [slice, demand]
  split
  next h => simp [h]
  next h => exact iff_of_false nofun fun hm => h hm.1

/-- A map whose calls all end in values. -/
theorem mapM_of {f : α → Outcome ε β} {g : α → β} {l : List α} (h : ∀ a ∈ l, f a = .ok (g a)) :
    l.mapM f = .ok (l.map g) := by
  induction l with
  | nil => simp
  | cons a l ih =>
    obtain ⟨ha, hl⟩ := List.forall_mem_cons.mp h
    rw [List.mapM_cons, ha, ok_bind, ih hl]
    rfl

/-! ## Where a step leaves a chain -/

/-- A check does not panic itself. -/
theorem ensure_bind_eq_panic {p : Prop} [Decidable p] {e : ε} {f : Unit → Outcome ε β} :
    (ensure p e >>= f) = .panic ↔ p ∧ f () = .panic := by
  rw [bind_eq_panic, or_iff_right ensure_ne_panic]
  exact ⟨fun ⟨_, hp, h⟩ => ⟨ensure_eq_ok.mp hp, h⟩, fun ⟨hp, h⟩ => ⟨(), ensure_of hp, h⟩⟩

/-- A missing element is a panic. -/
theorem get_bind_eq_panic {l : List α} {i : ℕ} {f : α → Outcome ε β} :
    (get l i >>= f) = .panic ↔ ∀ a, l[i]? = some a → f a = .panic := by
  rw [get]
  cases l[i]? <;> simp

/-- So is a slice out of bounds. -/
theorem slice_bind_eq_panic {l : List α} {i j : ℕ} {f : List α → Outcome ε β} :
    (slice l i j >>= f) = .panic ↔
      (i ≤ j ∧ j ≤ l.length → f ((l.drop i).take (j - i)) = .panic) := by
  rw [slice, demand]
  split
  next h => exact ⟨fun hf _ => hf, fun hf => hf h⟩
  next h => exact iff_of_true rfl fun hle => absurd hle h

/-- So is a difference below zero. -/
theorem minus_bind_eq_panic {a b : ℕ} {f : ℕ → Outcome ε β} :
    (minus a b >>= f) = .panic ↔ (b ≤ a → f (a - b) = .panic) := by
  rw [minus]
  split
  next h => exact ⟨fun hf _ => hf, fun hf => hf h⟩
  next h => exact iff_of_true rfl fun hle => absurd hle h

/-! ## Calls without a panic -/

@[simp] theorem ofExcept_ne_panic (x : Except ε α) : ofExcept x ≠ .panic := by
  cases x <;> nofun

@[simp] theorem ofOption_ne_panic (x : Option α) : ofOption x ≠ .panic := by
  cases x <;> nofun

theorem ofExcept_eq_ok {x : Except ε α} {a : α} : ofExcept x = .ok a ↔ x = .ok a := by
  cases x <;> simp [ofExcept]

theorem ofOption_eq_ok {x : Option α} {a : α} : ofOption x = .ok a ↔ x = some a := by
  cases x <;> simp [ofOption]

/-- A sequence of steps that do not panic. -/
theorem ofExcept_bind (x : Except ε α) (f : α → Except ε β) :
    ofExcept (x >>= f) = ofExcept x >>= fun a => ofExcept (f a) := by
  cases x <;> rfl

/-! ## Numbers of a machine -/

theorem signed_of {bits : ℕ} {n : ℤ} (h : -2 ^ (bits - 1) ≤ n ∧ n < 2 ^ (bits - 1)) :
    (signed bits n : Outcome ε ℤ) = .ok n :=
  if_pos h

/-- When a signed number overflows. -/
theorem signed_eq_panic {bits : ℕ} {n : ℤ} :
    (signed bits n : Outcome ε ℤ) = .panic ↔ ¬(-2 ^ (bits - 1) ≤ n ∧ n < 2 ^ (bits - 1)) := by
  rw [signed]
  split
  next h => exact iff_of_false nofun (not_not.mpr h)
  next h => exact iff_of_true rfl h

theorem unsigned_of {bits n : ℕ} (h : n < 2 ^ bits) : (unsigned bits n : Outcome ε ℕ) = .ok n :=
  if_pos h

/-- When an unsigned one does. -/
theorem unsigned_eq_panic {bits n : ℕ} :
    (unsigned bits n : Outcome ε ℕ) = .panic ↔ ¬n < 2 ^ bits := by
  rw [unsigned]
  split
  next h => exact iff_of_false nofun (not_not.mpr h)
  next h => exact iff_of_true rfl h

theorem minus_of {a b : ℕ} (h : b ≤ a) : (minus a b : Outcome ε ℕ) = .ok (a - b) := if_pos h

/-- A difference below zero is a panic. -/
theorem minus_of_lt {a b : ℕ} (h : a < b) : (minus a b : Outcome ε ℕ) = .panic :=
  if_neg (Nat.not_le.mpr h)

end Outcome
