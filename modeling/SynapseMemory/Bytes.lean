import Mathlib

/-!
# Byte strings

Byte strings as lists of bytes, fixed-width little-endian numbers, and reading a fixed number of
bytes from the front. A reader that gets exactly as many bytes as the writer emitted gets these
bytes and leaves the rest (`readExact_append`), and what a read returned was there
(`readExact_eq_some`).

A digest is a byte string of 32 bytes. A hash function from byte strings to digests collides
somewhere; `CollisionFree` says that it does not on the inputs of a given list.
-/

/-- A byte string. -/
abbrev Bytes : Type := List UInt8

namespace Bytes

/-! ## Little-endian numbers -/

/-- The `w` low bytes of a number, the least significant one first. -/
def ofNat : ℕ → ℕ → Bytes
  | 0, _ => []
  | w + 1, n => UInt8.ofNat n :: ofNat w (n / 256)

/-- The number with these bytes. -/
def toNat : Bytes → ℕ
  | [] => 0
  | b :: rest => b.toNat + 256 * toNat rest

@[simp] theorem length_ofNat (w n : ℕ) : (ofNat w n).length = w := by
  induction w generalizing n with
  | zero => rfl
  | succ w ih => rw [ofNat, List.length_cons, ih]

/-- Bytes hold a number as far as they reach. -/
theorem toNat_ofNat (w n : ℕ) : toNat (ofNat w n) = n % 256 ^ w := by
  induction w generalizing n with
  | zero => rw [ofNat, toNat, pow_zero, Nat.mod_one]
  | succ w ih =>
    rw [ofNat, toNat, ih, UInt8.toNat_ofNat', pow_succ' 256 w, Nat.mod_mul]

/-- A number that fits comes back. -/
theorem toNat_ofNat_of_lt {w n : ℕ} (h : n < 256 ^ w) : toNat (ofNat w n) = n := by
  rw [toNat_ofNat, Nat.mod_eq_of_lt h]

/-- The number of some bytes is bounded by how many they are. -/
theorem toNat_lt (b : Bytes) : toNat b < 256 ^ b.length := by
  induction b with
  | nil => exact Nat.one_pos
  | cons x rest ih =>
    have hx : x.toNat < 256 := x.toNat_lt
    rw [toNat, List.length_cons, pow_succ']
    omega

/-- Bytes are the bytes of their number. -/
theorem ofNat_toNat (b : Bytes) : ofNat b.length (toNat b) = b := by
  induction b with
  | nil => rfl
  | cons x rest ih =>
    have hx : x.toNat < 256 := x.toNat_lt
    have hhead : UInt8.ofNat (x.toNat + 256 * toNat rest) = x := by
      apply UInt8.toNat_inj.mp
      rw [UInt8.toNat_ofNat']
      omega
    have htail : (x.toNat + 256 * toNat rest) / 256 = toNat rest := by omega
    rw [toNat, List.length_cons, ofNat, hhead, htail, ih]

theorem ofNat_toNat_of_length {b : Bytes} {w : ℕ} (h : b.length = w) : ofNat w (toNat b) = b := by
  rw [← h, ofNat_toNat]

/-- `to_le_bytes` of a signed number of 64 bits. -/
def ofI64 (n : ℤ) : Bytes := ofNat 8 (n % 2 ^ 64).toNat

@[simp] theorem length_ofI64 (n : ℤ) : (ofI64 n).length = 8 := length_ofNat 8 _

/-- `str::as_bytes` -/
def ofString (s : String) : Bytes := s.toUTF8.data.toList

theorem ofString_inj {s t : String} : ofString s = ofString t ↔ s = t := by
  rw [ofString, ofString, Array.toList_inj, ← ByteArray.ext_iff]
  exact String.toByteArray_inj

/-! ## Reading from the front -/

/-- `read_exact`: the first `w` bytes and the rest, if there are as many. -/
def readExact (w : ℕ) (b : Bytes) : Option (Bytes × Bytes) :=
  if w ≤ b.length then some (b.take w, b.drop w) else none

/-- As many bytes as are read stand in front. -/
theorem readExact_append {w : ℕ} {x : Bytes} (h : x.length = w) (rest : Bytes) :
    readExact w (x ++ rest) = some (x, rest) := by
  subst h
  rw [readExact, if_pos (by simp), List.take_left, List.drop_left]

/-- Reading succeeds exactly if there are enough bytes. -/
theorem readExact_eq_some {w : ℕ} {b x rest : Bytes} :
    readExact w b = some (x, rest) ↔ x.length = w ∧ b = x ++ rest := by
  refine ⟨?_, ?_⟩
  · intro h
    rw [readExact] at h
    split at h
    next hle =>
      cases h
      exact ⟨List.length_take_of_le hle, (List.take_append_drop w b).symm⟩
    next => cases h
  · rintro ⟨hlen, rfl⟩
    exact readExact_append hlen rest

/-! ## Slices -/

/-- `b[i..j]` -/
def slice (b : Bytes) (i j : ℕ) : Bytes := (b.drop i).take (j - i)

/-- A slice of the front. -/
theorem slice_left {a : Bytes} {n : ℕ} (h : a.length = n) (b : Bytes) :
    slice (a ++ b) 0 n = a := by
  subst h
  exact List.take_left

/-- A slice behind the front. -/
theorem slice_right {a : Bytes} {n : ℕ} (h : a.length = n) (b : Bytes) (i j : ℕ) :
    slice (a ++ b) (n + i) (n + j) = slice b i j := by
  subst h
  rw [slice, ← List.drop_drop, List.drop_left, Nat.add_sub_add_left, slice]

theorem length_slice {b : Bytes} {i j : ℕ} (h : j ≤ b.length) : (slice b i j).length = j - i := by
  rw [slice, List.length_take, List.length_drop]
  omega

/-- Adjoining slices. -/
theorem slice_append_slice (b : Bytes) {i j k : ℕ} (hij : i ≤ j) (hjk : j ≤ k) :
    slice b i j ++ slice b j k = slice b i k := by
  have hdrop : b.drop j = (b.drop i).drop (j - i) := by
    rw [List.drop_drop, Nat.add_sub_of_le hij]
  rw [slice, slice, slice, hdrop, show k - i = (j - i) + (k - j) by omega, List.take_add]

theorem slice_all {b : Bytes} {n : ℕ} (h : b.length = n) : slice b 0 n = b := by
  rw [slice, List.drop_zero, Nat.sub_zero, List.take_of_length_le h.le]

/-- One byte. -/
theorem slice_succ {b : Bytes} {i : ℕ} (h : i < b.length) : slice b i (i + 1) = [b.getD i 0] := by
  rw [slice, Nat.add_sub_cancel_left, List.drop_eq_getElem_cons h, List.take_succ_cons,
    List.take_zero, List.getD_eq_getElem _ _ h]

/-- Exactly `n` bytes, padded with zeros or cut. -/
def fixed (n : ℕ) (b : Bytes) : { b : Bytes // b.length = n } :=
  ⟨b.takeD n 0, List.takeD_length n b 0⟩

end Bytes

/-- Where a default stands for nothing, the value tells what there is if it is not the default. -/
theorem Option.eq_of_getD_eq {α : Type*} {z : α} {a b : Option α} (ha : a ≠ some z)
    (hb : b ≠ some z) (h : a.getD z = b.getD z) : a = b := by
  cases a with
  | none =>
    cases b with
    | none => rfl
    | some y => exact absurd (congrArg some h.symm) hb
  | some x =>
    cases b with
    | none => exact absurd (congrArg some h) ha
    | some y => exact congrArg some h

/-! ## Digests -/

/-- A hash value of 32 bytes. -/
@[ext] structure Digest where
  bytes : Bytes
  length_eq : bytes.length = 32
  deriving DecidableEq

namespace Digest

/-- `copy_from_slice` into 32 bytes -/
def ofBytes (b : Bytes) : Digest := ⟨b.takeD 32 0, List.takeD_length 32 b 0⟩

/-- A digest of 32 bytes has these bytes. -/
theorem bytes_ofBytes {b : Bytes} (h : b.length = 32) : (ofBytes b).bytes = b := by
  change b.takeD 32 0 = b
  rw [List.takeD_eq_take _ h.ge, List.take_of_length_le h.le]

@[simp] theorem ofBytes_bytes (d : Digest) : ofBytes d.bytes = d :=
  Digest.ext (bytes_ofBytes d.length_eq)

/-- `[0u8; 32]` -/
def zero : Digest := ⟨List.replicate 32 0, List.length_replicate⟩

/-- A polynomial checksum. -/
def checksum (b : Bytes) : Digest :=
  ⟨Bytes.ofNat 32 (b.foldl (fun h x => h * 257 + x.toNat + 1) 1), Bytes.length_ofNat 32 _⟩

end Digest

/-- The hash function on byte strings. -/
class ContentHash where
  blake3 : Bytes → Digest

/-- A stand-in for the hash function. -/
@[reducible] def ContentHash.checksum : ContentHash := ⟨Digest.checksum⟩

/-- On these inputs the hash function does not collide, and none of them is hashed to zeros. -/
structure CollisionFree (hash : Bytes → Digest) (inputs : List Bytes) : Prop where
  inj : ∀ x ∈ inputs, ∀ y ∈ inputs, hash x = hash y → x = y
  ne_zero : ∀ x ∈ inputs, hash x ≠ Digest.zero

/-- Without a collision on more inputs, there is none on fewer. -/
theorem CollisionFree.mono {hash : Bytes → Digest} {inputs inputs' : List Bytes}
    (h : CollisionFree hash inputs') (hsub : inputs ⊆ inputs') : CollisionFree hash inputs :=
  ⟨fun x hx y hy => h.inj x (hsub hx) y (hsub hy), fun x hx => h.ne_zero x (hsub hx)⟩

instance (hash : Bytes → Digest) (inputs : List Bytes) : Decidable (CollisionFree hash inputs) :=
  decidable_of_iff ((∀ x ∈ inputs, ∀ y ∈ inputs, hash x = hash y → x = y) ∧
    ∀ x ∈ inputs, hash x ≠ Digest.zero) ⟨fun h => ⟨h.1, h.2⟩, fun h => ⟨h.inj, h.ne_zero⟩⟩
