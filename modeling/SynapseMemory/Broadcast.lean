import Mathlib

/-!
# Broadcast channels

What is sent to a channel goes to every receiver, in the order in which it was sent. A channel keeps
only the last of it. A receiver that is too slow is told how much it has lost and goes on with the
oldest message kept.

So what a receiver has got is part of what was sent since it is there, in order, and what is missing
is what it was told (`Receiver.Faithful`). It has lost nothing if it was never behind by more than
the capacity (`Receiver.Faithful.recv_lost`).
-/

namespace Broadcast

variable {α : Type}

/-- The position of the oldest message kept, by how many were sent. At least the last `capacity`
ones are kept. -/
structure Window (capacity : ℕ) where
  oldest : ℕ → ℕ
  oldest_le : ∀ n, oldest n ≤ n - capacity

/-- The window that keeps no more than that. -/
def Window.last (capacity : ℕ) : Window capacity := ⟨fun n => n - capacity, fun _ => le_rfl⟩

/-- A receiver. Where it started, what it has got and how much it has lost are for the
statements. -/
structure Receiver (α : Type) where
  pos : ℕ
  start : ℕ
  taken : List α
  lost : ℕ

/-- `subscribe` -/
def Receiver.new (log : List α) : Receiver α := ⟨log.length, log.length, [], 0⟩

/-- What a receiver gets: a message, the number of those it has lost, or neither. -/
inductive Recv (α : Type) where
  | ok (a : α)
  | lagged (n : ℕ)
  /-- There is nothing yet. -/
  | wait

/-- `recv` -/
def Receiver.recv {capacity : ℕ} (w : Window capacity) (log : List α) (r : Receiver α) :
    Recv α × Receiver α :=
  let oldest := w.oldest log.length
  if r.pos < oldest then
    (.lagged (oldest - r.pos), { r with pos := oldest, lost := r.lost + (oldest - r.pos) })
  else
    match log[r.pos]? with
    | some a => (.ok a, { r with pos := r.pos + 1, taken := r.taken ++ [a] })
    | none => (.wait, r)

/-- What was sent while the receiver came to where it is. -/
def Receiver.passed (log : List α) (r : Receiver α) : List α := (log.take r.pos).drop r.start

namespace Receiver

/-- Nothing is wrong, and what is missing was told. -/
structure Faithful (log : List α) (r : Receiver α) : Prop where
  start_le : r.start ≤ r.pos
  pos_le : r.pos ≤ log.length
  sub : r.taken.Sublist (r.passed log)
  count : r.taken.length + r.lost = r.pos - r.start

theorem faithful_new (log : List α) : Faithful log (new log) where
  start_le := le_rfl
  pos_le := le_rfl
  sub := List.nil_sublist _
  count := by simp [new]

variable {log : List α} {r : Receiver α}

theorem length_passed (h : Faithful log r) : (r.passed log).length = r.pos - r.start := by
  rw [passed, List.length_drop, List.length_take, min_eq_left h.pos_le]

/-- A message that is sent changes nothing of what was received. -/
theorem Faithful.send (h : Faithful log r) (a : α) : Faithful (log ++ [a]) r where
  start_le := h.start_le
  pos_le := by
    rw [List.length_append]
    exact Nat.le_add_right_of_le h.pos_le
  sub := by
    rw [passed, List.take_append_of_le_length h.pos_le]
    exact h.sub
  count := h.count

/-- Receiving keeps a receiver faithful, whether it lags or not. -/
theorem Faithful.recv {capacity : ℕ} {w : Window capacity} (h : Faithful log r) :
    Faithful log (r.recv w log).2 := by
  have hold := w.oldest_le log.length
  have hstart := h.start_le
  have hcount := h.count
  rw [Receiver.recv]
  split
  next hlag =>
    refine ⟨hstart.trans hlag.le, by dsimp only; omega, h.sub.trans ?_, by dsimp only; omega⟩
    rw [passed, passed]
    exact (List.take_prefix_take_left hlag.le).sublist.drop r.start
  next =>
    split
    next a ha =>
      obtain ⟨hless, -⟩ := List.getElem?_eq_some_iff.mp ha
      have hpassed : passed log { r with pos := r.pos + 1, taken := r.taken ++ [a] } =
          r.passed log ++ [a] := by
        have hroom : r.start ≤ (log.take r.pos).length := by
          rw [List.length_take]
          omega
        rw [passed, passed, List.take_add_one, ha, Option.toList_some,
          List.drop_append_of_le_length hroom]
      refine ⟨by dsimp only; omega, hless, ?_, ?_⟩
      · rw [hpassed]
        exact h.sub.append (List.Sublist.refl [a])
      · rw [List.length_append, List.length_singleton]
        dsimp only
        omega
    next => exact h

/-- The message that is received is the next one. -/
theorem recv_ok {capacity : ℕ} {w : Window capacity} {r' : Receiver α} {a : α}
    (h : r.recv w log = (.ok a, r')) : r'.taken = r.taken ++ [a] := by
  rw [recv] at h
  split at h
  · cases h
  · split at h
    · cases h
      rfl
    · cases h

theorem recv_lagged {capacity : ℕ} {w : Window capacity} {r' : Receiver α} {n : ℕ}
    (h : r.recv w log = (.lagged n, r')) : r'.taken = r.taken := by
  rw [recv] at h
  split at h
  · cases h
    rfl
  · split at h <;> cases h

/-- **Nothing is lost** by a receiver that is not behind by more than the capacity. -/
theorem recv_lost {capacity : ℕ} {w : Window capacity} (h : log.length ≤ r.pos + capacity) :
    (r.recv w log).2.lost = r.lost := by
  have hold := w.oldest_le log.length
  rw [recv, if_neg (by omega)]
  split <;> rfl

/-- What a receiver has got that has lost nothing. -/
theorem Faithful.taken_eq (h : Faithful log r) (hlost : r.lost = 0) : r.taken = r.passed log := by
  refine h.sub.eq_of_length ?_
  rw [length_passed h, ← h.count, hlost, Nat.add_zero]

/-- What is missing from what a receiver looks for is no more than what it has lost. -/
theorem Faithful.length_filter_le (h : Faithful log r) (p : α → Bool) :
    ((r.passed log).filter p).length ≤ (r.taken.filter p).length + r.lost := by
  have hother := (h.sub.filter fun a => !p a).length_le
  have hpassed := List.length_eq_length_filter_add (l := r.passed log) p
  have htaken := List.length_eq_length_filter_add (l := r.taken) p
  have hcount := h.count
  rw [← length_passed h] at hcount
  omega

end Receiver

end Broadcast
