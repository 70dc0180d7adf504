import SynapseMemory.Bytes
import SynapseMemory.Proto

/-!
# The container format

The model of `synapse-core/src/synx`: the header of 64 bytes, the frame of a chunk, the manifest,
the footer of 256 bytes, the writer, and the two readers. `SynxReader` reads from the file at the
offsets that the header and the manifest give; `MmapReader` reads from slices of the mapped file.

A frame carries its length, its kind and codec, the hash of the data, the length of the data, and
the payload. What is read back from a frame is the chunk (`readFrom_frame`), and a chunk that was
read stands there as a frame (`readFrom_ok`).
-/

namespace SynapseMemory.Synx

/-- `Error` -/
inductive Error where
  | io (message : String)
  | format (message : String)
  deriving DecidableEq

/-- What `read_exact` says at the end of the file. -/
def Error.eof : Error := .io "failed to fill whole buffer"

/-- Go on only if the condition holds. -/
def ensure (p : Prop) [Decidable p] (e : Error) : Except Error Unit :=
  if p then .ok () else .error e

theorem ensure_ok {p : Prop} [Decidable p] {e : Error} {u : Unit} : ensure p e = .ok u ↔ p := by
  rw [ensure]
  split
  next h => exact iff_of_true rfl h
  next h => exact iff_of_false nofun h

theorem isSome_toOption {ε α : Type} {x : Except ε α} :
    x.toOption.isSome = true ↔ ∃ a, x = .ok a := by
  cases x with
  | error e => simp [Except.toOption]
  | ok a => simp [Except.toOption]

/-- `read_exact` -/
def readExact (n : ℕ) (b : Bytes) : Except Error (Bytes × Bytes) :=
  match Bytes.readExact n b with
  | some r => .ok r
  | none => .error .eof

/-- As many bytes as are read stand in front. -/
theorem readExact_append {n : ℕ} {x : Bytes} (h : x.length = n) (rest : Bytes) :
    readExact n (x ++ rest) = .ok (x, rest) := by
  rw [readExact, Bytes.readExact_append h]

/-- What was read stands in front. -/
theorem readExact_ok {n : ℕ} {b x rest : Bytes} (h : readExact n b = .ok (x, rest)) :
    x.length = n ∧ b = x ++ rest := by
  rw [readExact] at h
  split at h
  next hread =>
    cases h
    exact Bytes.readExact_eq_some.mp hread
  next => cases h

/-! ## Chunks -/

/-- `ChunkKind` -/
inductive ChunkKind where
  | rowBatch
  | textBlob
  | ftsSegment
  | vecIndex
  | vecPayload
  | crdtOpsLog
  | schemaDef
  | merkleNode
  | tombstone
  deriving DecidableEq

/-- `to_u16` -/
def ChunkKind.toU16 : ChunkKind → ℕ
  | .rowBatch => 0x01
  | .textBlob => 0x02
  | .ftsSegment => 0x03
  | .vecIndex => 0x04
  | .vecPayload => 0x05
  | .crdtOpsLog => 0x06
  | .schemaDef => 0x07
  | .merkleNode => 0x08
  | .tombstone => 0xFF

/-- A number in hexadecimal, with at least two digits. -/
def hex04 (v : ℕ) : String :=
  "0x" ++ (if v < 16 then "0" else "") ++ String.ofList (Nat.toDigits 16 v)

/-- `from_u16` -/
def ChunkKind.fromU16 (v : ℕ) : Except Error ChunkKind :=
  match v with
  | 0x01 => .ok .rowBatch
  | 0x02 => .ok .textBlob
  | 0x03 => .ok .ftsSegment
  | 0x04 => .ok .vecIndex
  | 0x05 => .ok .vecPayload
  | 0x06 => .ok .crdtOpsLog
  | 0x07 => .ok .schemaDef
  | 0x08 => .ok .merkleNode
  | 0xFF => .ok .tombstone
  | _ => .error (.format ("unknown chunk kind " ++ hex04 v))

@[simp] theorem ChunkKind.fromU16_toU16 (k : ChunkKind) : fromU16 k.toU16 = .ok k := by
  cases k <;> rfl

/-- A number that is read is that of its kind. -/
theorem ChunkKind.toU16_of_fromU16 {v : ℕ} {k : ChunkKind} (h : fromU16 v = .ok k) :
    k.toU16 = v := by
  unfold fromU16 at h
  split at h <;> cases h <;> rfl

theorem ChunkKind.toU16_lt (k : ChunkKind) : k.toU16 < 256 ^ 2 := by
  cases k <;> decide

/-- `Codec` -/
inductive Codec where
  | raw
  | zstd
  deriving DecidableEq

/-- `to_u8` -/
def Codec.toU8 : Codec → UInt8
  | .raw => 0
  | .zstd => 1

/-- `from_u8` -/
def Codec.fromU8 (v : UInt8) : Except Error Codec :=
  if v = 0 then .ok .raw
  else if v = 1 then .ok .zstd
  else .error (.format ("unknown codec " ++ toString v.toNat))

@[simp] theorem Codec.fromU8_toU8 (c : Codec) : fromU8 c.toU8 = .ok c := by
  cases c <;> rfl

theorem Codec.toU8_of_fromU8 {v : UInt8} {c : Codec} (h : fromU8 v = .ok c) : c.toU8 = v := by
  rw [fromU8] at h
  split at h
  next hv => cases h; exact hv.symm
  next =>
    split at h
    next hv => cases h; exact hv.symm
    next => cases h

/-- `Chunk` -/
structure Chunk where
  kind : ChunkKind
  codec : Codec
  flags : UInt8
  hash : Digest
  uncompressedLen : ℕ
  payload : Bytes
  deriving DecidableEq

/-- `ChunkRef` -/
structure ChunkRef where
  kindRaw : ℕ
  offset : ℕ
  length : ℕ
  hash : Digest
  deriving DecidableEq

/-- The chunks of a file. The other parts of the manifest keep their defaults. -/
structure Manifest where
  chunks : List ChunkRef
  deriving DecidableEq

/-- The hash, the compression and the text format of the manifest. -/
class SynxLibs extends ContentHash where
  encodeAll : Bytes → Except Error Bytes
  decodeAll : Bytes → Except Error Bytes
  toJson : Manifest → Except Error Bytes
  fromJson : Bytes → Except Error Manifest
  decode_encode : ∀ x y, encodeAll x = .ok y → decodeAll y = .ok x
  from_to : ∀ m b, toJson m = .ok b → fromJson b = .ok m

/-- `CHUNK_HEADER_SIZE` -/
def chunkHeaderSize : ℕ := 16

/-- The length field of a frame. -/
def Chunk.totalLen (c : Chunk) : ℕ := (chunkHeaderSize + 32 + 8 + c.payload.length) % 2 ^ 32

/-- The first 16 bytes of a frame, the last 8 of them reserved. -/
def Chunk.header (c : Chunk) (reserved : Bytes) : Bytes :=
  Bytes.ofNat 4 c.totalLen ++ (Bytes.ofNat 2 c.kind.toU16 ++ ([c.codec.toU8] ++ ([c.flags] ++
    reserved)))

/-- A frame. -/
def Chunk.frameWith (c : Chunk) (reserved : Bytes) : Bytes :=
  c.header reserved ++ (c.hash.bytes ++ (Bytes.ofNat 8 c.uncompressedLen ++ c.payload))

/-- What `write_to` writes. -/
def Chunk.frame (c : Chunk) : Bytes := c.frameWith (List.replicate 8 0)

/-- The length of the payload in a frame of this length. -/
def payloadLength (totalLen : ℕ) : Except Error ℕ :=
  if chunkHeaderSize + 32 + 8 ≤ totalLen then .ok (totalLen - (chunkHeaderSize + 32 + 8))
  else .error (.format "chunk length underflow")

/-- `read_from` -/
def Chunk.readFrom (b : Bytes) : Except Error Chunk := do
  let (hdr, b) ← readExact chunkHeaderSize b
  let totalLen := Bytes.toNat (Bytes.slice hdr 0 4)
  let kind ← ChunkKind.fromU16 (Bytes.toNat (Bytes.slice hdr 4 6))
  let codec ← Codec.fromU8 (hdr.getD 6 0)
  let flags := hdr.getD 7 0
  let (hash, b) ← readExact 32 b
  let (ulen, b) ← readExact 8 b
  let uncompressedLen := Bytes.toNat ulen
  let payloadLen ← payloadLength totalLen
  let (payload, _) ← readExact payloadLen b
  .ok ⟨kind, codec, flags, Digest.ofBytes hash, uncompressedLen, payload⟩

section Frame

variable {c : Chunk} {reserved : Bytes} (hreserved : reserved.length = 8)
include hreserved

theorem Chunk.length_header : (c.header reserved).length = chunkHeaderSize := by
  simp [header, chunkHeaderSize, hreserved]

theorem Chunk.length_frameWith : (c.frameWith reserved).length = 56 + c.payload.length := by
  simp only [frameWith, List.length_append, length_header hreserved, chunkHeaderSize,
    Digest.length_eq, Bytes.length_ofNat]
  omega

/-- A frame is read back. -/
theorem Chunk.readFrom_frameWith (hframe : 56 + c.payload.length < 2 ^ 32)
    (hlen : c.uncompressedLen < 2 ^ 64) (rest : Bytes) :
    readFrom (c.frameWith reserved ++ rest) = .ok c := by
  have htotal : c.totalLen = 56 + c.payload.length := Nat.mod_eq_of_lt hframe
  have h0 : Bytes.toNat (Bytes.slice (c.header reserved) 0 4) = c.totalLen := by
    rw [header, Bytes.slice_left (Bytes.length_ofNat 4 _), Bytes.toNat_ofNat_of_lt]
    exact Nat.mod_lt _ (by decide)
  have h4 : Bytes.toNat (Bytes.slice (c.header reserved) 4 6) = c.kind.toU16 := by
    rw [header, Bytes.slice_right (Bytes.length_ofNat 4 _) _ 0 2,
      Bytes.slice_left (Bytes.length_ofNat 2 _), Bytes.toNat_ofNat_of_lt c.kind.toU16_lt]
  have h6 : (c.header reserved).getD 6 0 = c.codec.toU8 := by simp [header, Bytes.ofNat]
  have h7 : (c.header reserved).getD 7 0 = c.flags := by simp [header, Bytes.ofNat]
  have hpayload : payloadLength c.totalLen = .ok c.payload.length := by
    rw [payloadLength, htotal, chunkHeaderSize, if_pos (by omega), Nat.add_sub_cancel_left]
  rw [frameWith, List.append_assoc, List.append_assoc, List.append_assoc, readFrom,
    readExact_append (length_header hreserved)]
  simp only [bind, Except.bind, h0, h4, h6, h7, ChunkKind.fromU16_toU16, Codec.fromU8_toU8,
    readExact_append c.hash.length_eq, readExact_append (Bytes.length_ofNat 8 c.uncompressedLen),
    hpayload, readExact_append rfl, Digest.ofBytes_bytes,
    Bytes.toNat_ofNat_of_lt (show c.uncompressedLen < 256 ^ 8 from hlen)]

end Frame

/-- The size of a chunk. -/
theorem Chunk.length_frame (c : Chunk) : c.frame.length = 56 + c.payload.length :=
  length_frameWith List.length_replicate

/-- The length in the header is the size of the chunk, unless it is too large. -/
theorem Chunk.totalLen_of_lt {c : Chunk} (h : c.frame.length < 2 ^ 32) :
    c.totalLen = c.frame.length := by
  rw [length_frame] at h ⊢
  exact Nat.mod_eq_of_lt h

/-- A chunk is read back. -/
theorem Chunk.readFrom_frame {c : Chunk} (hframe : c.frame.length < 2 ^ 32)
    (hlen : c.uncompressedLen < 2 ^ 64) (rest : Bytes) : readFrom (c.frame ++ rest) = .ok c :=
  readFrom_frameWith List.length_replicate (c.length_frame ▸ hframe) hlen rest

/-- The fields of the first 16 bytes. -/
theorem header_fields {hdr : Bytes} (h : hdr.length = chunkHeaderSize) :
    Bytes.slice hdr 0 4 ++ (Bytes.slice hdr 4 6 ++ ([hdr.getD 6 0] ++ ([hdr.getD 7 0] ++
      Bytes.slice hdr 8 16))) = hdr := by
  rw [chunkHeaderSize] at h
  rw [← Bytes.slice_succ (by omega), ← Bytes.slice_succ (by omega),
    Bytes.slice_append_slice _ (by decide) (by decide),
    Bytes.slice_append_slice _ (by decide) (by decide),
    Bytes.slice_append_slice _ (by decide) (by decide),
    Bytes.slice_append_slice _ (by decide) (by decide), Bytes.slice_all h]

/-- How long the payload is. -/
theorem payloadLength_ok {totalLen n : ℕ} (h : payloadLength totalLen = .ok n) :
    totalLen = 56 + n := by
  rw [payloadLength, chunkHeaderSize] at h
  split at h
  next hle =>
    cases h
    omega
  next => cases h

/-- A chunk that was read stands there as a frame. -/
theorem Chunk.readFrom_ok {b : Bytes} {c : Chunk} (h : readFrom b = .ok c) :
    ∃ reserved rest, reserved.length = 8 ∧ 56 + c.payload.length < 2 ^ 32 ∧
      c.uncompressedLen < 2 ^ 64 ∧ b = c.frameWith reserved ++ rest := by
  rw [readFrom] at h
  obtain ⟨⟨hdr, b₁⟩, hhdr, h⟩ := bind_eq_ok.mp h
  obtain ⟨kind, hkind, h⟩ := bind_eq_ok.mp h
  obtain ⟨codec, hcodec, h⟩ := bind_eq_ok.mp h
  obtain ⟨⟨hash, b₂⟩, hhash, h⟩ := bind_eq_ok.mp h
  obtain ⟨⟨ulen, b₃⟩, hulen, h⟩ := bind_eq_ok.mp h
  obtain ⟨payloadLen, hlen, h⟩ := bind_eq_ok.mp h
  obtain ⟨⟨payload, rest⟩, hpayload, h⟩ := bind_eq_ok.mp h
  obtain rfl := Except.ok.inj h
  obtain ⟨hhdrlen, rfl⟩ := readExact_ok hhdr
  obtain ⟨hhashlen, rfl⟩ := readExact_ok hhash
  obtain ⟨hulenlen, rfl⟩ := readExact_ok hulen
  obtain ⟨rfl, rfl⟩ := readExact_ok hpayload
  have hslice : ∀ {i j : ℕ}, j ≤ 16 → (Bytes.slice hdr i j).length = j - i := fun hj =>
    Bytes.length_slice (hhdrlen.symm ▸ hj)
  have htotal : Bytes.toNat (Bytes.slice hdr 0 4) = 56 + payload.length := payloadLength_ok hlen
  have hbound : 56 + payload.length < 2 ^ 32 := by
    rw [← htotal]
    exact (Bytes.toNat_lt _).trans_eq (by rw [hslice (by decide)]; rfl)
  have hfour : Bytes.ofNat 4 (Bytes.toNat (Bytes.slice hdr 0 4)) = Bytes.slice hdr 0 4 :=
    Bytes.ofNat_toNat_of_length (hslice (by decide))
  have htwo : Bytes.ofNat 2 (Bytes.toNat (Bytes.slice hdr 4 6)) = Bytes.slice hdr 4 6 :=
    Bytes.ofNat_toNat_of_length (hslice (by decide))
  refine ⟨Bytes.slice hdr 8 16, rest, hslice (by decide), hbound, ?_, ?_⟩
  · exact (Bytes.toNat_lt ulen).trans_eq (by rw [hulenlen]; rfl)
  · rw [frameWith, header, totalLen, chunkHeaderSize, Nat.mod_eq_of_lt hbound, ← htotal, hfour,
      ChunkKind.toU16_of_fromU16 hkind, htwo, Codec.toU8_of_fromU8 hcodec, header_fields hhdrlen,
      Digest.bytes_ofBytes hhashlen, Bytes.ofNat_toNat_of_length hulenlen]
    simp only [List.append_assoc]

/-! ## The data of a chunk -/

section Data

variable [SynxLibs]

/-- `new` -/
def Chunk.new (kind : ChunkKind) (codec : Codec) (data : Bytes) : Except Error Chunk :=
  let hash := ContentHash.blake3 data
  let uncompressedLen := data.length % 2 ^ 64
  match codec with
  | .raw => .ok ⟨kind, codec, 0, hash, uncompressedLen, data⟩
  | .zstd =>
    match SynxLibs.encodeAll data with
    | .ok payload => .ok ⟨kind, codec, 0, hash, uncompressedLen, payload⟩
    | .error e => .error e

/-- The payload, decompressed. -/
def Chunk.expand (c : Chunk) : Except Error Bytes :=
  match c.codec with
  | .raw => .ok c.payload
  | .zstd => SynxLibs.decodeAll c.payload

/-- `decode` -/
def Chunk.decode (c : Chunk) : Except Error Bytes :=
  match c.expand with
  | .error e => .error e
  | .ok data =>
    if ContentHash.blake3 data ≠ c.hash then .error (.format "chunk hash mismatch — corruption")
    else if data.length % 2 ^ 64 ≠ c.uncompressedLen then
      .error (.format "uncompressed_len mismatch")
    else .ok data

/-- When a chunk is decoded. -/
theorem Chunk.decode_ok {c : Chunk} {data : Bytes} :
    c.decode = .ok data ↔
      c.expand = .ok data ∧ ContentHash.blake3 data = c.hash ∧
        data.length % 2 ^ 64 = c.uncompressedLen := by
  rw [decode]
  refine ⟨?_, ?_⟩
  · intro h
    split at h
    · cases h
    next data' hexpand =>
      split at h
      · cases h
      next hhash =>
        split at h
        · cases h
        next hlen =>
          cases h
          exact ⟨hexpand, not_not.mp hhash, not_not.mp hlen⟩
  · rintro ⟨hexpand, hhash, hlen⟩
    simp only [hexpand, hhash, hlen, ne_eq, not_true_eq_false, if_false]

/-- What a new chunk is, and that its data come back. -/
theorem Chunk.new_ok {kind : ChunkKind} {codec : Codec} {data : Bytes} {c : Chunk}
    (h : new kind codec data = .ok c) :
    c.kind = kind ∧ c.hash = ContentHash.blake3 data ∧ c.uncompressedLen < 2 ^ 64 ∧
      c.decode = .ok data := by
  have hlen : data.length % 2 ^ 64 < 2 ^ 64 := Nat.mod_lt _ (by decide)
  cases codec with
  | raw =>
    cases h
    exact ⟨rfl, rfl, hlen, decode_ok.mpr ⟨rfl, rfl, rfl⟩⟩
  | zstd =>
    rw [new] at h
    cases hencode : SynxLibs.encodeAll data with
    | error e =>
      rw [hencode] at h
      cases h
    | ok payload =>
      rw [hencode] at h
      cases h
      exact ⟨rfl, rfl, hlen, decode_ok.mpr ⟨SynxLibs.decode_encode _ _ hencode, rfl, rfl⟩⟩

end Data

/-! ## Header and footer -/

/-- `MAGIC` -/
def magic : Bytes := Bytes.ofString "SYNX"

/-- `FOOTER_MAGIC` -/
def footerMagic : Bytes := Bytes.ofString "XNYS"

/-- `VERSION` -/
def version : ℕ := 2

/-- `HEADER_SIZE` -/
def headerSize : ℕ := 64

/-- `FOOTER_SIZE` -/
def footerSize : ℕ := 256

/-- `SynxHeader` -/
structure SynxHeader where
  version : ℕ
  flags : UInt16
  manifestOffset : ℕ
  footerOffset : ℕ
  createdUnix : ℕ
  creatorUuid : { b : Bytes // b.length = 16 }

/-- The flags that the format knows. -/
def knownFlags : UInt16 := 7

/-- What `SynxHeader::write_to` writes. -/
def SynxHeader.bytes (h : SynxHeader) : Bytes :=
  magic ++ (Bytes.ofNat 2 h.version ++ (Bytes.ofNat 2 h.flags.toNat ++ (List.replicate 8 0 ++
    (Bytes.ofNat 8 h.manifestOffset ++ (Bytes.ofNat 8 h.footerOffset ++
      (Bytes.ofNat 8 h.createdUnix ++ (h.creatorUuid.val ++ List.replicate 8 0)))))))

/-- `read_from` -/
def SynxHeader.readFrom (b : Bytes) : Except Error SynxHeader :=
  match readExact headerSize b with
  | .error e => .error e
  | .ok (buf, _) =>
    if Bytes.slice buf 0 4 ≠ magic then .error (.format "bad magic — not a .synx file")
    else if Bytes.toNat (Bytes.slice buf 4 6) ≠ Synx.version then
      .error (.format ("unsupported version " ++ toString (Bytes.toNat (Bytes.slice buf 4 6)) ++
        " (expected " ++ toString Synx.version ++ ")"))
    else
      .ok
        { version := Bytes.toNat (Bytes.slice buf 4 6)
          flags := UInt16.ofNat (Bytes.toNat (Bytes.slice buf 6 8)) &&& knownFlags
          manifestOffset := Bytes.toNat (Bytes.slice buf 16 24)
          footerOffset := Bytes.toNat (Bytes.slice buf 24 32)
          createdUnix := Bytes.toNat (Bytes.slice buf 32 40)
          creatorUuid := Bytes.fixed 16 (Bytes.slice buf 40 56) }

/-- The size of the header. -/
theorem SynxHeader.length_bytes (h : SynxHeader) : h.bytes.length = headerSize := by
  have hmagic : magic.length = 4 := by decide +kernel
  simp [bytes, hmagic, h.creatorUuid.property, headerSize]

/-- What comes after the header is not read. -/
theorem SynxHeader.readFrom_append {buf : Bytes} (h : buf.length = headerSize) (rest : Bytes) :
    readFrom (buf ++ rest) = readFrom buf := by
  have hread := readExact_append h []
  rw [List.append_nil] at hread
  rw [readFrom, readFrom, readExact_append h, hread]

/-- The header is read back where it is written, up to unknown flags. -/
theorem SynxHeader.readFrom_bytes {h : SynxHeader} (hversion : h.version = Synx.version)
    (hmanifest : h.manifestOffset < 2 ^ 64) (rest : Bytes) :
    ∃ h', readFrom (h.bytes ++ rest) = .ok h' ∧ h'.manifestOffset = h.manifestOffset := by
  have hmagic : magic.length = 4 := by decide +kernel
  have h0 : Bytes.slice h.bytes 0 4 = magic := Bytes.slice_left hmagic _
  have h4 : Bytes.toNat (Bytes.slice h.bytes 4 6) = Synx.version := by
    rw [bytes, Bytes.slice_right hmagic _ 0 2, Bytes.slice_left (Bytes.length_ofNat 2 _), hversion]
    rfl
  have h16 : Bytes.toNat (Bytes.slice h.bytes 16 24) = h.manifestOffset := by
    rw [bytes, Bytes.slice_right hmagic _ 12 20, Bytes.slice_right (Bytes.length_ofNat 2 _) _ 10 18,
      Bytes.slice_right (Bytes.length_ofNat 2 _) _ 8 16,
      Bytes.slice_right List.length_replicate _ 0 8, Bytes.slice_left (Bytes.length_ofNat 8 _),
      Bytes.toNat_ofNat_of_lt hmanifest]
  rw [readFrom, readExact_append h.length_bytes]
  simp only [h0, h4, ne_eq, not_true_eq_false, if_false]
  exact ⟨_, rfl, h16⟩

/-- `SynxFooter` -/
structure SynxFooter where
  manifestHash : Digest
  signature : Option { b : Bytes // b.length = 64 }
  pubkey : Option { b : Bytes // b.length = 32 }

/-- The signature and the key, or zeros. -/
def SynxFooter.sealing (f : SynxFooter) : Bytes :=
  match f.signature, f.pubkey with
  | some sig, some pk => sig.val ++ pk.val
  | _, _ => List.replicate 96 0

/-- What `SynxFooter::write_to` writes. -/
def SynxFooter.bytes (f : SynxFooter) : Bytes :=
  footerMagic ++ (f.manifestHash.bytes ++ (f.sealing ++ (List.replicate 122 0 ++
    Bytes.ofNat 2 version)))

/-- `read_from` -/
def SynxFooter.readFrom (b : Bytes) : Except Error SynxFooter :=
  match readExact footerSize b with
  | .error e => .error e
  | .ok (buf, _) =>
    if Bytes.slice buf 0 4 ≠ footerMagic then .error (.format "bad footer magic")
    else
      let manifestHash := Digest.ofBytes (Bytes.slice buf 4 36)
      if (Bytes.slice buf 36 100).any (· ≠ 0) then
        .ok ⟨manifestHash, some (Bytes.fixed 64 (Bytes.slice buf 36 100)),
          some (Bytes.fixed 32 (Bytes.slice buf 100 132))⟩
      else .ok ⟨manifestHash, none, none⟩

/-- The size of the footer. -/
theorem SynxFooter.length_bytes (f : SynxFooter) : f.bytes.length = footerSize := by
  have hmagic : footerMagic.length = 4 := by decide +kernel
  have hseal : f.sealing.length = 96 := by
    rw [sealing]
    split
    next sig pk _ _ => rw [List.length_append, sig.property, pk.property]
    next => exact List.length_replicate
  simp [bytes, hmagic, hseal, Digest.length_eq, footerSize]

/-- The hash of the manifest is read back. -/
theorem SynxFooter.readFrom_bytes (f : SynxFooter) :
    ∃ f', readFrom f.bytes = .ok f' ∧ f'.manifestHash = f.manifestHash := by
  have hmagic : footerMagic.length = 4 := by decide +kernel
  have h0 : Bytes.slice f.bytes 0 4 = footerMagic := Bytes.slice_left hmagic _
  have h4 : Bytes.slice f.bytes 4 36 = f.manifestHash.bytes := by
    rw [bytes, Bytes.slice_right hmagic _ 0 32, Bytes.slice_left f.manifestHash.length_eq]
  rw [readFrom, ← List.append_nil f.bytes, readExact_append f.length_bytes]
  simp only [h0, h4, Digest.ofBytes_bytes, ne_eq, not_true_eq_false, if_false]
  split
  · exact ⟨_, rfl, rfl⟩
  · exact ⟨_, rfl, rfl⟩

/-! ## The writer -/

/-- The size that a file can have. -/
def maxFileSize : ℕ := 2 ^ 63 - 1

/-- `write_all`, at the end of the file. -/
def writeAll (file b : Bytes) : Except Error Bytes := do
  ensure (file.length + b.length ≤ maxFileSize) (.io "File too large (os error 27)")
  .ok (file ++ b)

/-- Writing appends, as long as the file may grow. -/
theorem writeAll_ok {file b file' : Bytes} (h : writeAll file b = .ok file') :
    file' = file ++ b ∧ file'.length ≤ maxFileSize := by
  obtain ⟨u, hfits, h⟩ := bind_eq_ok.mp h
  cases h
  rw [List.length_append]
  exact ⟨rfl, ensure_ok.mp hfits⟩

/-- `SynxWriter`, with what was written to its file. -/
structure SynxWriter where
  file : Bytes
  header : SynxHeader
  manifest : Manifest
  offset : ℕ

/-- What is appended to a file. -/
structure Entry where
  kind : ChunkKind
  codec : Codec
  data : Bytes

section Writer

variable [SynxLibs]

/-- `create` -/
def SynxWriter.create (now : ℕ) (flags : UInt16) : Except Error SynxWriter := do
  let header : SynxHeader :=
    ⟨version, flags, 0, 0, now, ⟨List.replicate 16 0, List.length_replicate⟩⟩
  let file ← writeAll [] header.bytes
  .ok ⟨file, header, ⟨[]⟩, headerSize⟩

/-- `write_chunk`. The manifest records what `write_to` returned as the length. -/
def SynxWriter.writeChunk (w : SynxWriter) (c : Chunk) : Except Error SynxWriter := do
  let file ← writeAll w.file c.frame
  let entry : ChunkRef := ⟨c.kind.toU16, w.offset, c.totalLen, c.hash⟩
  .ok { w with file, manifest := ⟨w.manifest.chunks ++ [entry]⟩, offset := w.offset + c.totalLen }

/-- A chunk is made and written. -/
def SynxWriter.append (w : SynxWriter) (e : Entry) : Except Error SynxWriter := do
  let c ← Chunk.new e.kind e.codec e.data
  w.writeChunk c

/-- The chunk that `finish` makes of the manifest. -/
def SynxWriter.manifestChunk (w : SynxWriter) : Except Error Chunk := do
  let manifestBytes ← SynxLibs.toJson w.manifest
  Chunk.new .schemaDef .zstd manifestBytes

/-- `finish`: the file that is left on disk. -/
def SynxWriter.finish (w : SynxWriter) : Except Error Bytes := do
  let mc ← w.manifestChunk
  let file ← writeAll w.file mc.frame
  let file ← writeAll file (SynxFooter.bytes ⟨mc.hash, none, none⟩)
  let header : SynxHeader :=
    { w.header with manifestOffset := w.offset, footerOffset := w.offset + mc.totalLen }
  .ok (header.bytes ++ file.drop headerSize)

/-- Append the entries one after the other. -/
def SynxWriter.appendAll (w : SynxWriter) (entries : List Entry) : Except Error SynxWriter :=
  entries.foldlM SynxWriter.append w

/-- A new file with these entries. -/
def writeFile (now : ℕ) (flags : UInt16) (entries : List Entry) : Except Error Bytes := do
  let w ← SynxWriter.create now flags
  let w ← w.appendAll entries
  w.finish

end Writer

/-! ## The readers -/

section Readers

variable [SynxLibs]

/-- The manifest in the chunk that stands here, if the chunk has the hash of the footer. -/
def loadManifest (b : Bytes) (manifestHash : Digest) (complaint : String) :
    Except Error Manifest := do
  let c ← Chunk.readFrom b
  ensure (c.hash = manifestHash) (.format complaint)
  let manifestBytes ← c.decode
  SynxLibs.fromJson manifestBytes

/-- `SynxReader` -/
structure SynxReader where
  inner : Bytes
  header : SynxHeader
  footer : SynxFooter
  manifest : Manifest

/-- `SynxReader::open` -/
def SynxReader.openFile (file : Bytes) : Except Error SynxReader := do
  let header ← SynxHeader.readFrom file
  ensure (footerSize ≤ file.length) (.format "file smaller than footer")
  let footer ← SynxFooter.readFrom (file.drop (file.length - footerSize))
  let manifest ← loadManifest (file.drop header.manifestOffset) footer.manifestHash
    "manifest hash does not match footer"
  .ok ⟨file, header, footer, manifest⟩

/-- `read_chunk_at` -/
def SynxReader.readChunkAt (r : SynxReader) (idx : ℕ) : Except Error Chunk :=
  match r.manifest.chunks[idx]? with
  | none => .error (.format ("chunk idx " ++ toString idx ++ " out of range"))
  | some e => Chunk.readFrom (r.inner.drop e.offset)

/-- `MmapReader` -/
structure MmapReader where
  map : Bytes
  header : SynxHeader
  footer : SynxFooter
  manifest : Manifest

/-- `MmapReader::open` -/
def MmapReader.openFile (map : Bytes) : Except Error MmapReader := do
  ensure (headerSize + footerSize ≤ map.length) (.format "file smaller than header+footer")
  ensure (Bytes.slice map 0 4 = magic) (.format "not a .synx file")
  let header ← SynxHeader.readFrom (Bytes.slice map 0 headerSize)
  let footer ← SynxFooter.readFrom (map.drop (map.length - footerSize))
  ensure (header.manifestOffset + 16 ≤ map.length) (.format "manifest offset past EOF")
  let manifest ← loadManifest (map.drop header.manifestOffset) footer.manifestHash
    "manifest hash mismatch"
  .ok ⟨map, header, footer, manifest⟩

/-- `raw_slice` -/
def MmapReader.rawSlice (m : MmapReader) (idx : ℕ) : Except Error Bytes :=
  match m.manifest.chunks[idx]? with
  | none => .error (.format ("idx " ++ toString idx ++ " out of range"))
  | some e => do
    ensure (e.offset + e.length ≤ m.map.length) (.format "chunk end past EOF")
    .ok (Bytes.slice m.map e.offset (e.offset + e.length))

/-- `read_chunk` -/
def MmapReader.readChunk (m : MmapReader) (idx : ℕ) : Except Error Chunk := do
  let slice ← m.rawSlice idx
  Chunk.readFrom slice

end Readers

end SynapseMemory.Synx
