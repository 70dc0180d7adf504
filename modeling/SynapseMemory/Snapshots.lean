import SynapseMemory.Federation
import SynapseMemory.Outcome
import SynapseMemory.PackMerge

/-!
# Snapshots

The model of `export`, `export_signed`, `import_magic` and `import_signed` of `snap.rs`, with every
slice and every index of the imports as a step that may panic, and with the file that they write. A
plain pack carries the size and the hash of the image; a signed one carries the hash of its body
and, after the body, a key and a signature of this hash.

A pack that an import accepts is described by `SignedPack` and `Pack`, and what was exported is such
a pack. The imports look at the header before they know that the file is long enough for it, so
files that are shorter than the header, or than the header and the trailer, are where they panic
(`openSigned_eq_panic`, `openMagic_eq_panic`).
-/

namespace SynapseMemory.Snap

open SynxIo
open Provenance (Ed25519 SigningKey Signature)
open Federation (PublicKeyBytes)

/-- `VERSION` -/
def version : UInt8 := 1

/-- `VERSION_SIGNED` -/
def versionSigned : UInt8 := 2

/-- The parts of a signed pack. -/
def signedBody (raw : Bytes) : Bytes := Bytes.slice raw 49 (raw.length - 96)

/-- The key at the end of a signed pack. -/
def packKey (raw : Bytes) : Bytes := Bytes.slice raw (raw.length - 96) (raw.length - 64)

/-- The signature at the end of a signed pack. -/
def packSignature (raw : Bytes) : Signature := Bytes.fixed 64 (raw.drop (raw.length - 64))

section Plain

variable [Blake3] [F : FileLibs]

/-! ## `import_magic`, up to the writing -/

/-- `import_raw`: the image. -/
def openRaw (raw : Bytes) : Outcome ImportError Bytes := do
  let _version ← Outcome.get raw 4
  let _level ← Outcome.slice raw 5 9
  let rawLen ← Outcome.slice raw 9 17
  let hash ← Outcome.slice raw 17 49
  let body ← Outcome.slice raw 49 raw.length
  let data ← .ofExcept (fromLib (F.zstdDecode body))
  Outcome.ensure (data.length = leNat rawLen) (.message "size mismatch")
  Outcome.ensure (F.hashBytes data = hash) (.message "blake3 mismatch")
  .ok data

/-- `import_magic` of a signed pack: the image. -/
def openBody (raw : Bytes) : Outcome ImportError Bytes := do
  let bodyEnd ← Outcome.minus raw.length 96
  let body ← Outcome.slice raw 49 bodyEnd
  .ofExcept (fromLib (F.zstdDecode body))

/-- `import_magic`: the image. -/
def openMagic (raw : Bytes) : Outcome ImportError Bytes := do
  Outcome.ensure (5 ≤ raw.length) (.message "file too short")
  let start ← Outcome.slice raw 0 4
  Outcome.ensure (start = magic)
    (.message ("bad magic — expected BPK1, got " ++ toString start ++
      ". Extension is ignored; content determines format."))
  let version ← Outcome.get raw 4
  if version = versionSigned then openBody raw else openRaw raw

/-- A pack of this image. The signature of a signed one may be anything. -/
structure Pack (raw image : Bytes) : Prop where
  magic_eq : raw.take 4 = magic
  body_eq : if raw[4]? = some versionSigned then
      145 ≤ raw.length ∧ F.zstdDecode (signedBody raw) = .ok image
    else
      49 ≤ raw.length ∧ F.zstdDecode (raw.drop 49) = .ok image ∧
        image.length = Bytes.toNat (Bytes.slice raw 9 17) ∧
        F.hashBytes image = Bytes.slice raw 17 49

/-- The file has room for the header, and for the trailer of a signed pack. -/
def Fits (raw : Bytes) : Prop :=
  5 ≤ raw.length → raw.take 4 = magic →
    if raw[4]? = some versionSigned then 145 ≤ raw.length else 49 ≤ raw.length

theorem openRaw_eq_ok {raw image : Bytes} :
    openRaw raw = .ok image ↔
      49 ≤ raw.length ∧ F.zstdDecode (raw.drop 49) = .ok image ∧
        image.length = Bytes.toNat (Bytes.slice raw 9 17) ∧
        F.hashBytes image = Bytes.slice raw 17 49 := by
  simp only [openRaw, Outcome.bind_eq_ok, Outcome.get_eq_ok, Outcome.slice_eq_ok,
    Outcome.ofExcept_eq_ok, mapError_eq_ok, Outcome.ensure_eq_ok, exists_const, fromLib,
    Outcome.ok.injEq, leNat_eq]
  refine ⟨?_, ?_⟩
  · rintro ⟨v, -, level, -, rawLen, ⟨-, rfl⟩, hash, ⟨⟨-, hle⟩, rfl⟩, body, ⟨-, rfl⟩, data, hdecode,
      hsize, hhash, rfl⟩
    rw [← List.length_drop, List.take_length] at hdecode
    exact ⟨hle, hdecode, hsize, hhash⟩
  · rintro ⟨hle, hdecode, hsize, hhash⟩
    have hget : raw[4]? = some raw[4] := List.getElem?_eq_getElem (by omega)
    refine ⟨_, hget, _, ⟨by omega, rfl⟩, _, ⟨by omega, rfl⟩, _, ⟨by omega, rfl⟩, _,
      ⟨by omega, rfl⟩, image, ?_, hsize, hhash, rfl⟩
    rwa [← List.length_drop, List.take_length]

theorem openRaw_eq_panic {raw : Bytes} (h : 4 < raw.length) :
    openRaw raw = .panic ↔ ¬49 ≤ raw.length := by
  have hrest : ∀ (b : Bytes) (n : ℕ) (hash : Bytes),
    (Outcome.ofExcept (fromLib (F.zstdDecode b)) >>=
      fun data => do
        Outcome.ensure (data.length = n) (.message "size mismatch")
        Outcome.ensure (F.hashBytes data = hash) (.message "blake3 mismatch")
        .ok data) ≠ .panic := by
    intro b n hash
    simp [Outcome.bind_eq_panic]
  simp only [openRaw, Outcome.get_bind_eq_panic, Outcome.slice_bind_eq_panic, hrest,
    List.getElem?_eq_getElem h]
  simp only [Option.some.injEq, forall_eq', imp_false]
  omega

theorem openBody_eq {raw : Bytes} (h : 145 ≤ raw.length) :
    openBody raw = .ofExcept (fromLib (F.zstdDecode (signedBody raw))) := by
  rw [openBody, Outcome.minus_of (by omega), Outcome.ok_bind,
    Outcome.slice_of (by omega) (by omega), Outcome.ok_bind]
  rfl

theorem openBody_eq_panic {raw : Bytes} : openBody raw = .panic ↔ ¬145 ≤ raw.length := by
  simp only [openBody, Outcome.minus_bind_eq_panic, Outcome.slice_bind_eq_panic,
    Outcome.ofExcept_ne_panic, imp_false]
  omega

theorem openBody_eq_ok {raw image : Bytes} :
    openBody raw = .ok image ↔ 145 ≤ raw.length ∧ F.zstdDecode (signedBody raw) = .ok image := by
  refine ⟨fun h => ?_, fun ⟨hle, h⟩ => ?_⟩
  · have hle : 145 ≤ raw.length := by
      by_contra hlt
      rw [openBody_eq_panic.mpr hlt] at h
      cases h
    rw [openBody_eq hle] at h
    exact ⟨hle, mapError_eq_ok.mp (Outcome.ofExcept_eq_ok.mp h)⟩
  · rw [openBody_eq hle]
    exact Outcome.ofExcept_eq_ok.mpr (mapError_eq_ok.mpr h)

/-- **What `import_magic` accepts.** -/
theorem openMagic_eq_ok {raw image : Bytes} : openMagic raw = .ok image ↔ Pack raw image := by
  simp only [openMagic, Outcome.bind_eq_ok, Outcome.ensure_eq_ok, Outcome.slice_eq_ok,
    Outcome.get_eq_ok, exists_const]
  refine ⟨?_, ?_⟩
  · rintro ⟨-, start, ⟨-, rfl⟩, hmagic, v, hv, h⟩
    refine ⟨hmagic, ?_⟩
    simp only [hv, Option.some.injEq]
    split at h
    next hversion => exact (if_pos hversion).mpr (openBody_eq_ok.mp h)
    next hversion => exact (if_neg hversion).mpr (openRaw_eq_ok.mp h)
  · rintro ⟨hmagic, h⟩
    have hle : 5 ≤ raw.length := by
      split at h <;> omega
    have hget : raw[4]? = some raw[4] := List.getElem?_eq_getElem hle
    simp only [hget, Option.some.injEq] at h
    refine ⟨hle, _, ⟨by omega, rfl⟩, hmagic, _, hget, ?_⟩
    split at h
    next hversion => exact (if_pos hversion).trans (openBody_eq_ok.mpr h)
    next hversion => exact (if_neg hversion).trans (openRaw_eq_ok.mpr h)

/-- **Where `import_magic` panics.** -/
theorem openMagic_eq_panic {raw : Bytes} : openMagic raw = .panic ↔ ¬Fits raw := by
  simp only [openMagic, Outcome.ensure_bind_eq_panic, Outcome.slice_bind_eq_panic,
    Outcome.get_bind_eq_panic]
  rw [Fits, Classical.not_imp, Classical.not_imp]
  refine and_congr_right fun hle => ?_
  have hget : raw[4]? = some raw[4] := List.getElem?_eq_getElem hle
  rw [imp_iff_right ⟨Nat.zero_le 4, by omega⟩]
  refine and_congr_right fun _ => ?_
  simp only [hget, Option.some.injEq, forall_eq']
  split
  · exact openBody_eq_panic
  · exact openRaw_eq_panic hle

end Plain

section Signed

variable [Blake3] [F : FileLibs] [Ed25519] [PublicKeyBytes]

/-! ## `import_signed`, up to the writing -/

/-- `import_signed`, once the file is known to have room for a header and a trailer. -/
def openTrailer (raw hash : Bytes) (expected : Option Ed25519.VerifyingKey) :
    Outcome ImportError (Ed25519.VerifyingKey × Bytes) := do
  let bodyEnd ← Outcome.minus raw.length 96
  let body ← Outcome.slice raw 49 bodyEnd
  let keyStart ← Outcome.minus raw.length 96
  let keyEnd ← Outcome.minus raw.length 64
  let pubkeyBytes ← Outcome.slice raw keyStart keyEnd
  let sigStart ← Outcome.minus raw.length 64
  let sigBytes ← Outcome.slice raw sigStart raw.length
  let vk ← .ofExcept ((PublicKeyBytes.fromBytes pubkeyBytes).mapError fun e =>
    .message ("bad pubkey in pack: " ++ e))
  let actual := F.hashBytes body
  Outcome.ensure (actual = hash) (.message "blake3 body hash mismatch")
  Outcome.ensure (Ed25519.verify vk actual (Bytes.fixed 64 sigBytes))
    (.message ("signature invalid: " ++ PublicKeyBytes.invalid))
  Outcome.ensure (∀ e ∈ expected, PublicKeyBytes.toBytes e = pubkeyBytes)
    (.message "public key in pack does not match expected")
  let data ← .ofExcept (fromLib (F.zstdDecode body))
  .ok (vk, data)

/-- `import_signed`: the key of the pack, and the image. -/
def openSigned (raw : Bytes) (expected : Option Ed25519.VerifyingKey) :
    Outcome ImportError (Ed25519.VerifyingKey × Bytes) := do
  let start ← Outcome.slice raw 0 4
  Outcome.ensure (start = magic) (.message "bad magic")
  let version ← Outcome.get raw 4
  Outcome.ensure (version = versionSigned)
    (.message "not a signed brainpack (version mismatch)")
  let _level ← Outcome.slice raw 5 9
  let hash ← Outcome.slice raw 17 49
  Outcome.ensure (49 + 96 ≤ raw.length) (.message "signed brainpack too short")
  openTrailer raw hash expected

/-- A signed pack of this image, with this key. -/
structure SignedPack (raw : Bytes) (vk : Ed25519.VerifyingKey) (image : Bytes) : Prop where
  length_le : 145 ≤ raw.length
  magic_eq : raw.take 4 = magic
  version_eq : raw[4]? = some versionSigned
  hash_eq : F.hashBytes (signedBody raw) = Bytes.slice raw 17 49
  key_eq : PublicKeyBytes.fromBytes (packKey raw) = .ok vk
  signed : Ed25519.verify vk (F.hashBytes (signedBody raw)) (packSignature raw) = true
  image_eq : F.zstdDecode (signedBody raw) = .ok image

/-- The trailer is read from slices that are there. -/
theorem openTrailer_eq {raw hash : Bytes} {expected : Option Ed25519.VerifyingKey}
    (h : 145 ≤ raw.length) :
    openTrailer raw hash expected = (do
      let vk ← .ofExcept ((PublicKeyBytes.fromBytes (packKey raw)).mapError fun e =>
        .message ("bad pubkey in pack: " ++ e))
      Outcome.ensure (F.hashBytes (signedBody raw) = hash) (.message "blake3 body hash mismatch")
      Outcome.ensure (Ed25519.verify vk (F.hashBytes (signedBody raw)) (packSignature raw))
        (.message ("signature invalid: " ++ PublicKeyBytes.invalid))
      Outcome.ensure (∀ e ∈ expected, PublicKeyBytes.toBytes e = packKey raw)
        (.message "public key in pack does not match expected")
      let data ← .ofExcept (fromLib (F.zstdDecode (signedBody raw)))
      .ok (vk, data)) := by
  rw [openTrailer, Outcome.minus_of (by omega), Outcome.minus_of (by omega), Outcome.ok_bind,
    Outcome.slice_of (by omega) (by omega), Outcome.ok_bind, Outcome.ok_bind, Outcome.ok_bind,
    Outcome.slice_of (by omega) (by omega), Outcome.ok_bind, Outcome.ok_bind,
    Outcome.slice_length (Nat.sub_le _ _), Outcome.ok_bind]
  rfl

theorem openTrailer_eq_ok {raw hash image : Bytes} {expected : Option Ed25519.VerifyingKey}
    {vk : Ed25519.VerifyingKey} (h : 145 ≤ raw.length) :
    openTrailer raw hash expected = .ok (vk, image) ↔
      PublicKeyBytes.fromBytes (packKey raw) = .ok vk ∧ F.hashBytes (signedBody raw) = hash ∧
        Ed25519.verify vk (F.hashBytes (signedBody raw)) (packSignature raw) = true ∧
        (∀ e ∈ expected, PublicKeyBytes.toBytes e = packKey raw) ∧
        F.zstdDecode (signedBody raw) = .ok image := by
  rw [openTrailer_eq h]
  simp only [Outcome.bind_eq_ok, Outcome.ofExcept_eq_ok, mapError_eq_ok, Outcome.ensure_eq_ok,
    Outcome.ok.injEq, Prod.mk.injEq, exists_const, fromLib]
  refine ⟨?_, ?_⟩
  · rintro ⟨vk', hkey, hhash, hverify, hexpected, image', hdecode, rfl, rfl⟩
    exact ⟨hkey, hhash, hverify, hexpected, hdecode⟩
  · rintro ⟨hkey, hhash, hverify, hexpected, hdecode⟩
    exact ⟨vk, hkey, hhash, hverify, hexpected, image, hdecode, rfl, rfl⟩

theorem openTrailer_ne_panic {raw hash : Bytes} {expected : Option Ed25519.VerifyingKey}
    (h : 145 ≤ raw.length) : openTrailer raw hash expected ≠ .panic := by
  rw [openTrailer_eq h]
  simp [Outcome.bind_eq_panic]

/-- **What `import_signed` accepts.** -/
theorem openSigned_eq_ok {raw image : Bytes} {expected : Option Ed25519.VerifyingKey}
    {vk : Ed25519.VerifyingKey} :
    openSigned raw expected = .ok (vk, image) ↔
      SignedPack raw vk image ∧ ∀ e ∈ expected, PublicKeyBytes.toBytes e = packKey raw := by
  simp only [openSigned, Outcome.bind_eq_ok, Outcome.slice_eq_ok, Outcome.ensure_eq_ok,
    Outcome.get_eq_ok, exists_const]
  refine ⟨?_, ?_⟩
  · rintro ⟨start, ⟨-, rfl⟩, hmagic, v, hv, rfl, level, -, hash, ⟨-, rfl⟩, hle, h⟩
    obtain ⟨hkey, hhash, hverify, hexpected, hdecode⟩ := (openTrailer_eq_ok hle).mp h
    exact ⟨⟨hle, hmagic, hv, hhash, hkey, hverify, hdecode⟩, hexpected⟩
  · rintro ⟨⟨hle, hmagic, hv, hhash, hkey, hverify, hdecode⟩, hexpected⟩
    exact ⟨_, ⟨by omega, rfl⟩, hmagic, _, hv, rfl, _, ⟨by omega, rfl⟩, _, ⟨by omega, rfl⟩, hle,
      (openTrailer_eq_ok hle).mpr ⟨hkey, hhash, hverify, hexpected, hdecode⟩⟩

/-- The file has room for what `import_signed` reads before it knows. -/
def SignedFits (raw : Bytes) : Prop :=
  4 ≤ raw.length ∧
    (raw.take 4 = magic → 5 ≤ raw.length ∧ (raw[4]? = some versionSigned → 49 ≤ raw.length))

/-- **Where `import_signed` panics.** -/
theorem openSigned_eq_panic {raw : Bytes} {expected : Option Ed25519.VerifyingKey} :
    openSigned raw expected = .panic ↔ ¬SignedFits raw := by
  have htrailer : ∀ hash, ¬(49 + 96 ≤ raw.length ∧ openTrailer raw hash expected = .panic) :=
    fun hash h => openTrailer_ne_panic h.1 h.2
  simp only [openSigned, Outcome.slice_bind_eq_panic, Outcome.ensure_bind_eq_panic,
    Outcome.get_bind_eq_panic, htrailer]
  refine ⟨fun h ⟨hfour, hfits⟩ => ?_, fun h hfour => ⟨?_, fun v hv => ⟨?_, fun _ hlen => h ?_⟩⟩⟩
  · obtain ⟨hmagic, h⟩ := h ⟨Nat.zero_le 4, hfour⟩
    obtain ⟨hfive, hfits⟩ := hfits hmagic
    have hget : raw[4]? = some raw[4] := List.getElem?_eq_getElem hfive
    obtain ⟨hversion, h⟩ := h _ hget
    have hlen : 49 ≤ raw.length := hfits (hget.trans (congrArg some hversion))
    exact h ⟨by decide, by omega⟩ ⟨by decide, hlen⟩
  · by_contra hmagic
    exact h ⟨hfour.2, fun hm => absurd hm hmagic⟩
  · by_contra hversion
    have hlen : 4 < raw.length := (List.getElem?_eq_some_iff.mp hv).1
    exact h ⟨hfour.2, fun _ => ⟨hlen, fun hv' => absurd (Option.some.inj (hv.symm.trans hv'))
      hversion⟩⟩
  · exact ⟨hfour.2, fun _ => ⟨by omega, fun _ => hlen.2⟩⟩

/-- A signed pack is a pack. -/
theorem SignedPack.pack {raw image : Bytes} {vk : Ed25519.VerifyingKey}
    (h : SignedPack raw vk image) : Pack raw image :=
  ⟨h.magic_eq, (if_pos h.version_eq).mpr ⟨h.length_le, h.image_eq⟩⟩

end Signed

/-! ## The exports -/

/-- The first 17 bytes. -/
def packHeader (version : UInt8) (level : ℤ) (rawLen : ℕ) : Bytes :=
  magic ++ [version] ++ leBytes (level % 2 ^ 32).toNat 4 ++ leBytes rawLen 8

theorem length_packHeader (v : UInt8) (level : ℤ) (rawLen : ℕ) :
    (packHeader v level rawLen).length = 17 := by
  simp only [packHeader, List.length_append, leBytes_eq, Bytes.length_ofNat, List.length_singleton]
  rfl

/-- The parts of a pack, where they stand. -/
theorem packed_parts {hash : Bytes} (hhash : hash.length = 32) (v : UInt8) (level : ℤ) (rawLen : ℕ)
    (rest : Bytes) :
    let raw := packHeader v level rawLen ++ (hash ++ rest)
    raw.take 4 = magic ∧ raw[4]? = some v ∧ Bytes.slice raw 9 17 = leBytes rawLen 8 ∧
      Bytes.slice raw 17 49 = hash ∧ raw.drop 49 = rest ∧ raw.length = 49 + rest.length := by
  have hfour : (leBytes (level % 2 ^ 32).toNat 4).length = 4 := by
    rw [leBytes_eq, Bytes.length_ofNat]
  have height : (leBytes rawLen 8).length = 8 := by rw [leBytes_eq, Bytes.length_ofNat]
  have hnine : (magic ++ [v] ++ leBytes (level % 2 ^ 32).toNat 4).length = 9 := by
    rw [List.length_append, hfour]
    rfl
  have hheader := length_packHeader v level rawLen
  refine ⟨?_, ?_, ?_, ?_, ?_, ?_⟩
  · rw [packHeader, List.append_assoc, List.append_assoc, List.append_assoc]
    exact List.take_left' rfl
  · rw [packHeader, List.append_assoc, List.append_assoc, List.append_assoc]
    rfl
  · rw [packHeader, List.append_assoc]
    exact (Bytes.slice_right hnine _ 0 8).trans (Bytes.slice_left height _)
  · exact (Bytes.slice_right hheader _ 0 32).trans (Bytes.slice_left hhash _)
  · rw [← List.append_assoc]
    exact List.drop_left' (by rw [List.length_append, hheader, hhash])
  · rw [List.length_append, List.length_append, hheader, hhash, ← Nat.add_assoc]

/-- The trailer, and the body before it. -/
theorem trailer_parts {front key sig : Bytes} (hfront : front.length = 49) (hkey : key.length = 32)
    (hsig : sig.length = 64) (body : Bytes) :
    let raw := front ++ (body ++ (key ++ sig))
    signedBody raw = body ∧ packKey raw = key ∧ packSignature raw = ⟨sig, hsig⟩ ∧
      raw.length = 145 + body.length := by
  intro raw
  have hlen : raw.length = 145 + body.length := by
    simp only [raw, List.length_append, hfront, hkey, hsig]
    omega
  have hkeyAt : raw.length - 96 = 49 + body.length := by omega
  have hsigAt : raw.length - 64 = 49 + body.length + 32 := by omega
  have hbefore : (front ++ body).length = 49 + body.length := by rw [List.length_append, hfront]
  refine ⟨?_, ?_, ?_, hlen⟩
  · rw [signedBody, hkeyAt]
    exact (Bytes.slice_right hfront _ 0 _).trans (Bytes.slice_left rfl _)
  · rw [packKey, hkeyAt, hsigAt, show raw = (front ++ body) ++ (key ++ sig) by
      rw [List.append_assoc]]
    exact (Bytes.slice_right hbefore _ 0 32).trans (Bytes.slice_left hkey _)
  · have hdrop : raw.drop (raw.length - 64) = sig := by
      rw [hsigAt, show raw = (front ++ body ++ key) ++ sig by simp only [raw, List.append_assoc]]
      exact List.drop_left' (by rw [List.length_append, hbefore, hkey])
    rw [packSignature, hdrop]
    exact Subtype.ext ((List.takeD_eq_take _ hsig.ge).trans (List.take_of_length_le hsig.le))

section Exports

variable [Blake3] [F : FileLibs] [L : PackLibs]

/-- An image of a database. Its size is a number of 64 bits. -/
abbrev Image : Type := { b : Bytes // b.length < 2 ^ 64 }

/-- `export`, from the image on. -/
def exportImage (level : ℤ) (image : Image) : Except ImportError Bytes := do
  let compressed ← fromLib (L.encodeAll level image.val)
  .ok (packHeader version level image.val.length ++ F.hashBytes image.val ++ compressed)

/-- What was exported is a pack of the image. -/
theorem exportImage_pack {level : ℤ} {image : Image} {raw : Bytes}
    (h : exportImage level image = .ok raw) : Pack raw image.val := by
  obtain ⟨compressed, hencode, h⟩ := bind_eq_ok.mp h
  obtain rfl := Except.ok.inj h
  rw [List.append_assoc]
  obtain ⟨hmagic, hversion, hlen, hsum, hbody, hsize⟩ :=
    packed_parts (L.length_hashBytes image.val) version level image.val.length compressed
  refine ⟨hmagic, (if_neg ?_).mpr ⟨hsize ▸ Nat.le_add_right _ _, ?_, ?_, hsum.symm⟩⟩
  · rw [hversion]
    decide
  · rw [hbody]
    exact L.decode_encodeAll (mapError_eq_ok.mp hencode)
  · rw [hlen, leBytes_eq, Bytes.toNat_ofNat_of_lt image.property]

variable [Ed25519] [PublicKeyBytes]

/-- `export_signed`, from the image on. -/
def exportSigned (sk : SigningKey) (level : ℤ) (image : Image) : Except ImportError Bytes := do
  let compressed ← fromLib (L.encodeAll level image.val)
  let bodyHash := F.hashBytes compressed
  .ok (packHeader versionSigned level 0 ++ bodyHash ++ (compressed ++
    (PublicKeyBytes.toBytes (Ed25519.verifyingKey sk) ++ (Ed25519.sign sk bodyHash).val)))


/-- What was signed and exported is a signed pack of the image, with the key of the signer. -/
theorem exportSigned_pack {sk : SigningKey} {level : ℤ} {image : Image} {raw : Bytes}
    (h : exportSigned sk level image = .ok raw) :
    SignedPack raw (Ed25519.verifyingKey sk) image.val ∧
      packKey raw = PublicKeyBytes.toBytes (Ed25519.verifyingKey sk) := by
  obtain ⟨compressed, hencode, h⟩ := bind_eq_ok.mp h
  obtain rfl := Except.ok.inj h
  have hkey := PublicKeyBytes.length_toBytes (Ed25519.verifyingKey sk)
  have hsig := (Ed25519.sign sk (F.hashBytes compressed)).property
  have hhash := L.length_hashBytes compressed
  have hfront : (packHeader versionSigned level 0 ++ F.hashBytes compressed).length = 49 := by
    rw [List.length_append, length_packHeader, hhash]
  obtain ⟨hbody, hpackKey, hpackSig, hlen⟩ := trailer_parts hfront hkey hsig compressed
  rw [List.append_assoc] at hbody hpackKey hpackSig hlen ⊢
  obtain ⟨hmagic, hversion, -, hsum, -, -⟩ := packed_parts hhash versionSigned level 0
    (compressed ++ (PublicKeyBytes.toBytes (Ed25519.verifyingKey sk) ++
      (Ed25519.sign sk (F.hashBytes compressed)).val))
  refine ⟨⟨hlen ▸ Nat.le_add_right _ _, hmagic, hversion, ?_, ?_, ?_, ?_⟩, hpackKey⟩
  · rw [hbody, hsum]
  · rw [hpackKey, PublicKeyBytes.fromBytes_toBytes]
  · rw [hbody, hpackSig]
    exact Ed25519.verify_sign _ _
  · rw [hbody]
    exact L.decode_encodeAll (mapError_eq_ok.mp hencode)

end Exports

/-! ## The destination -/

/-- What `std::fs::write` does to a file. Where it fails it may leave anything. -/
class Disk where
  write : Option Bytes → Bytes → Except String Unit × Option Bytes
  write_ok : ∀ dest data, (write dest data).1 = .ok () → (write dest data).2 = some data

section Restore

variable [Disk] {α : Type}

/-- The end of an import: the image is written. -/
def restore (x : Outcome ImportError (α × Bytes)) (dest : Option Bytes) :
    Outcome ImportError α × Option Bytes :=
  match x with
  | .ok (a, image) =>
    match Disk.write dest image with
    | (.ok (), dest') => (.ok a, dest')
    | (.error e, dest') => (.error (.message e), dest')
  | .error e => (.error e, dest)
  | .panic => (.panic, dest)

/-- The call does not panic, and with an error it leaves the destination as it was. -/
def Orderly (dest : Option Bytes) (r : Outcome ImportError α × Option Bytes) : Prop :=
  r.1 ≠ .panic ∧ ∀ e, r.1 = .error e → r.2 = dest

/-- If this cannot be written, the destination stays as it was. -/
def WritesCleanly (dest : Option Bytes) (image : Bytes) : Prop :=
  ∀ e, (Disk.write dest image).1 = .error e → (Disk.write dest image).2 = dest

theorem orderly_restore {x : Outcome ImportError (α × Bytes)} {dest : Option Bytes} :
    Orderly dest (restore x dest) ↔
      x ≠ .panic ∧ ∀ a image, x = .ok (a, image) → WritesCleanly dest image := by
  cases x with
  | error e => exact iff_of_true ⟨nofun, fun _ _ => rfl⟩ ⟨nofun, nofun⟩
  | panic => exact iff_of_false (fun h => h.1 rfl) fun h => h.1 rfl
  | ok p =>
    obtain ⟨a, image⟩ := p
    refine Iff.trans ?_ (show WritesCleanly dest image ↔ _ from
      ⟨fun h => ⟨nofun, fun _ _ hx => ?_⟩, fun h => h.2 a image rfl⟩)
    · rw [restore, WritesCleanly]
      rcases Disk.write dest image with ⟨e | u, dest'⟩
      · exact ⟨fun h _ _ => h.2 _ rfl, fun h => ⟨nofun, fun _ _ => h e rfl⟩⟩
      · exact iff_of_true ⟨nofun, nofun⟩ nofun
    · obtain ⟨-, rfl⟩ := Prod.mk.inj (Outcome.ok.inj hx)
      exact h

theorem restore_of_write {a : α} {image : Bytes} {dest : Option Bytes}
    (h : (Disk.write dest image).1 = .ok ()) :
    restore (.ok (a, image)) dest = (.ok a, some image) := by
  have hdest := Disk.write_ok dest image h
  rw [restore]
  rcases hwrite : Disk.write dest image with ⟨r, dest'⟩
  rw [hwrite] at h hdest
  subst h hdest
  rfl

theorem restore_ok {x : Outcome ImportError (α × Bytes)} {a : α} {dest dest' : Option Bytes}
    (h : restore x dest = (.ok a, dest')) : ∃ image, x = .ok (a, image) ∧ dest' = some image := by
  cases x with
  | error e => cases (Prod.mk.inj h).1
  | panic => cases (Prod.mk.inj h).1
  | ok p =>
    obtain ⟨a', image⟩ := p
    have hwritten := Disk.write_ok dest image
    rw [restore] at h
    rcases hwrite : Disk.write dest image with ⟨r, left⟩
    rw [hwrite] at h hwritten
    cases r with
    | error e => cases (Prod.mk.inj h).1
    | ok u =>
      obtain ⟨ha, rfl⟩ := Prod.mk.inj h
      obtain rfl := Outcome.ok.inj ha
      exact ⟨image, rfl, hwritten rfl⟩

end Restore

section Imports

variable [Blake3] [F : FileLibs] [Disk]

/-- `import_magic` -/
def importMagicTo (raw : Bytes) (dest : Option Bytes) :
    Outcome ImportError Unit × Option Bytes :=
  restore (openMagic raw >>= fun image => .ok ((), image)) dest

theorem orderly_importMagicTo {raw : Bytes} {dest : Option Bytes} :
    Orderly dest (importMagicTo raw dest) ↔
      Fits raw ∧ ∀ image, Pack raw image → WritesCleanly dest image := by
  have hpanic : (openMagic raw >>= fun image => Outcome.ok ((), image)) ≠ .panic ↔ Fits raw := by
    rw [ne_eq, Outcome.bind_eq_panic, openMagic_eq_panic]
    simp
  have hok : ∀ u image, (openMagic raw >>= fun image => Outcome.ok ((), image)) = .ok (u, image) ↔
      Pack raw image := by
    intro u image
    rw [Outcome.bind_eq_ok]
    simp [openMagic_eq_ok]
  rw [importMagicTo, orderly_restore, hpanic]
  simp only [hok, forall_const]

theorem importMagicTo_pack {raw image : Bytes} {dest : Option Bytes} (h : Pack raw image)
    (hwrite : (Disk.write dest image).1 = .ok ()) :
    importMagicTo raw dest = (.ok (), some image) := by
  rw [importMagicTo, openMagic_eq_ok.mpr h]
  exact restore_of_write hwrite

variable [Ed25519] [PublicKeyBytes]

/-- `import_signed` -/
def importSigned (raw : Bytes) (expected : Option Ed25519.VerifyingKey) (dest : Option Bytes) :
    Outcome ImportError Ed25519.VerifyingKey × Option Bytes :=
  restore (openSigned raw expected) dest

theorem orderly_importSigned {raw : Bytes} {expected : Option Ed25519.VerifyingKey}
    {dest : Option Bytes} :
    Orderly dest (importSigned raw expected dest) ↔
      SignedFits raw ∧ ∀ vk image, SignedPack raw vk image →
        (∀ e ∈ expected, PublicKeyBytes.toBytes e = packKey raw) → WritesCleanly dest image := by
  rw [importSigned, orderly_restore, ne_eq, openSigned_eq_panic, not_not]
  simp only [openSigned_eq_ok, and_imp]

/-- With an expected key, what is imported was signed with it. -/
theorem importSigned_expected {raw : Bytes} {vk expected : Ed25519.VerifyingKey}
    {dest dest' : Option Bytes} (h : importSigned raw (some expected) dest = (.ok vk, dest')) :
    vk = expected ∧ ∃ image, SignedPack raw expected image ∧ dest' = some image := by
  obtain ⟨image, hopen, hdest⟩ := restore_ok h
  obtain ⟨hpack, hkey⟩ := openSigned_eq_ok.mp hopen
  have hsame := hpack.key_eq
  rw [← hkey expected rfl, PublicKeyBytes.fromBytes_toBytes] at hsame
  obtain rfl := Except.ok.inj hsame
  exact ⟨rfl, image, hpack, hdest⟩

/-- Signatures cannot be forged: one that verifies was made. -/
def Unforgeable (Signed : Ed25519.VerifyingKey → Bytes → Prop) : Prop :=
  ∀ vk m s, Ed25519.verify vk m s = true → Signed vk m

/-- **Snapshots.** What is exported is restored, and an expected key is the one that signed the
body. An import is orderly exactly if the file has room for what it reads and the disk, if it comes
to that, is orderly too. -/
theorem snapshots_iff [L : PackLibs] :
    (∀ sk level (image : Image) raw dest, exportSigned sk level image = .ok raw →
      (Disk.write dest image.val).1 = .ok () →
        (∀ expected, (∀ e ∈ expected, e = Ed25519.verifyingKey sk) →
          importSigned raw expected dest = (.ok (Ed25519.verifyingKey sk), some image.val)) ∧
        importMagicTo raw dest = (.ok (), some image.val)) ∧
    (∀ level (image : Image) raw dest, exportImage level image = .ok raw →
      (Disk.write dest image.val).1 = .ok () →
        importMagicTo raw dest = (.ok (), some image.val)) ∧
    (∀ Signed, Unforgeable Signed → ∀ raw expected dest vk dest',
      importSigned raw (some expected) dest = (.ok vk, dest') →
        vk = expected ∧ Signed expected (F.hashBytes (signedBody raw))) ∧
    (∀ raw expected dest, Orderly dest (importSigned raw expected dest) ↔
      SignedFits raw ∧ ∀ vk image, SignedPack raw vk image →
        (∀ e ∈ expected, PublicKeyBytes.toBytes e = packKey raw) → WritesCleanly dest image) ∧
    ∀ raw dest, Orderly dest (importMagicTo raw dest) ↔
      Fits raw ∧ ∀ image, Pack raw image → WritesCleanly dest image := by
  refine ⟨fun sk level image raw dest hexport hwrite => ?_,
    fun level image raw dest hexport hwrite => importMagicTo_pack (exportImage_pack hexport) hwrite,
    fun Signed hunforgeable raw expected dest vk dest' h => ?_,
    fun raw expected dest => orderly_importSigned, fun raw dest => orderly_importMagicTo⟩
  · obtain ⟨hpack, hkey⟩ := exportSigned_pack hexport
    refine ⟨fun expected hexpected => ?_, importMagicTo_pack hpack.pack hwrite⟩
    rw [importSigned, openSigned_eq_ok.mpr ⟨hpack, fun e he => hexpected e he ▸ hkey.symm⟩]
    exact restore_of_write hwrite
  · obtain ⟨hvk, image, hpack, -⟩ := importSigned_expected h
    exact ⟨hvk, hunforgeable _ _ _ hpack.signed⟩

end Imports

/-- A disk that always writes. -/
@[reducible] def Disk.sound : Disk where
  write _ data := (.ok (), some data)
  write_ok _ _ _ := rfl

/-- An empty file, and a file that ends after the version. -/
theorem short_files_panic :
    let _ := Blake3.identity
    let _ := smallFiles
    let _ := Ed25519.checksum
    let _ := PublicKeyBytes.plain
    let _ := Disk.sound
    ¬Orderly none (importSigned [] none none) ∧
      ¬Orderly none (importMagicTo [66, 80, 75, 49, 1] none) :=
  ⟨fun h => h.1 rfl, fun h => h.1 rfl⟩

end SynapseMemory.Snap
