import SynapseMemory.Outcome
import SynapseMemory.SynxRoundTrip

/-!
# The container format at the limits of its numbers

The length field of a frame has 32 bits. `write_to` computes the length in the numbers of the
machine and stores what fits, so a frame of 2^32 bytes or more is written with a length that is not
its length. Such a frame is not read back (`readFrom_writeTo_iff`).

`MmapReader` takes the offset of the manifest from the header and the offsets of the chunks from the
manifest, adds to them, and compares the sums with the size of the file. `openRun` and `rawSliceRun`
are `open` and `raw_slice` with each of these sums in 64 bits and each slice within its bounds. They
are `openFile` and `rawSlice` as long as the sums have room (`openRun_eq`, `rawSliceRun_eq`), and a
file is read without a panic exactly if they do (`panicFree_iff`).
-/

namespace SynapseMemory.Synx

/-! ## Frames -/

/-- `write_to`: the file after the frame, and the length that is reported. -/
def Chunk.writeTo (c : Chunk) (file : Bytes) : Except Error (Bytes × ℕ) := do
  let file ← writeAll file (c.header (List.replicate 8 0))
  let file ← writeAll file c.hash.bytes
  let file ← writeAll file (Bytes.ofNat 8 c.uncompressedLen)
  let file ← writeAll file c.payload
  .ok (file, c.totalLen)

theorem writeAll_of_le {file b : Bytes} (h : file.length + b.length ≤ maxFileSize) :
    writeAll file b = .ok (file ++ b) :=
  bind_eq_ok.mpr ⟨(), ensure_ok.mpr h, rfl⟩

theorem writeAll_of_lt {file b : Bytes} (h : maxFileSize < file.length + b.length) :
    writeAll file b = .error (.io "File too large (os error 27)") := by
  rw [writeAll, ensure, if_neg (Nat.not_le.mpr h)]
  rfl

/-- To write two strings is to write the one made of them. -/
theorem writeAll_append (file a b : Bytes) :
    writeAll file (a ++ b) = writeAll file a >>= fun file => writeAll file b := by
  rcases Nat.lt_or_ge maxFileSize (file.length + a.length) with ha | ha
  · rw [writeAll_of_lt ha, writeAll_of_lt (by rw [List.length_append]; omega)]
    rfl
  rw [writeAll_of_le ha]
  change writeAll file (a ++ b) = writeAll (file ++ a) b
  rcases Nat.lt_or_ge maxFileSize (file.length + a.length + b.length) with hb | hb
  · rw [writeAll_of_lt (by rw [List.length_append]; omega),
      writeAll_of_lt (by rw [List.length_append]; omega)]
  · rw [writeAll_of_le (by rw [List.length_append]; omega),
      writeAll_of_le (by rw [List.length_append]; omega), List.append_assoc]

/-- What is written is the frame. -/
theorem Chunk.writeTo_eq (c : Chunk) (file : Bytes) :
    c.writeTo file = writeAll file c.frame >>= fun file => .ok (file, c.totalLen) := by
  simp only [writeTo, frame, frameWith, writeAll_append, bind_assoc]

theorem Chunk.writeTo_ok {c : Chunk} {file file' : Bytes} {n : ℕ}
    (h : c.writeTo file = .ok (file', n)) : file' = file ++ c.frame ∧ n = c.totalLen := by
  rw [writeTo_eq] at h
  obtain ⟨file₁, hfile, h⟩ := bind_eq_ok.mp h
  obtain ⟨rfl, rfl⟩ := Prod.mk.inj (Except.ok.inj h)
  exact ⟨(writeAll_ok hfile).1, rfl⟩

theorem Chunk.writeTo_of_le {c : Chunk} {file : Bytes}
    (h : file.length + c.frame.length ≤ maxFileSize) :
    c.writeTo file = .ok (file ++ c.frame, c.totalLen) := by
  rw [writeTo_eq, writeAll_of_le h]
  rfl

/-- The writer of a file reports to the manifest what `write_to` returns. -/
theorem SynxWriter.writeChunk_eq (w : SynxWriter) (c : Chunk) :
    w.writeChunk c = c.writeTo w.file >>= fun (file, n) => .ok
      { w with
        file
        manifest := ⟨w.manifest.chunks ++ [⟨c.kind.toU16, w.offset, n, c.hash⟩]⟩
        offset := w.offset + n } := by
  rw [Chunk.writeTo_eq, bind_assoc]
  rfl

/-- **The frame at the size limit.** -/
theorem readFrom_writeTo_iff {c : Chunk} {file file' : Bytes} {n : ℕ}
    (hwrite : c.writeTo file = .ok (file', n)) (hlen : c.uncompressedLen < 2 ^ 64) :
    (Chunk.readFrom (file'.drop file.length) = .ok c ∧ n = file'.length - file.length) ↔
      56 + c.payload.length < 2 ^ 32 := by
  obtain ⟨rfl, rfl⟩ := Chunk.writeTo_ok hwrite
  rw [List.drop_left, List.length_append, Nat.add_sub_cancel_left]
  refine ⟨fun h => ?_, fun h => ?_⟩
  · rw [← c.length_frame, ← h.2]
    exact Nat.mod_lt _ (by decide)
  · have hframe : c.frame.length < 2 ^ 32 := c.length_frame ▸ h
    refine ⟨?_, Chunk.totalLen_of_lt hframe⟩
    rw [← List.append_nil c.frame]
    exact Chunk.readFrom_frame hframe hlen []

/-- A small chunk comes back. -/
theorem hi_comes_back :
    (Chunk.readFrom (([0xFF] ++ (Chunk.frame ⟨.textBlob, .raw, 0, .zero, 2, [104, 105]⟩)).drop 1) =
        .ok ⟨.textBlob, .raw, 0, .zero, 2, [104, 105]⟩ ∧
      58 = ([0xFF] ++ Chunk.frame ⟨.textBlob, .raw, 0, .zero, 2, [104, 105]⟩).length - 1) ↔
      56 + 2 < 2 ^ 32 := by
  have hwrite : (Chunk.mk .textBlob .raw 0 .zero 2 [104, 105]).writeTo [0xFF] =
      .ok ([0xFF] ++ Chunk.frame ⟨.textBlob, .raw, 0, .zero, 2, [104, 105]⟩, 58) := by
    decide +kernel
  exact readFrom_writeTo_iff hwrite (by decide)

/-- A chunk of zeros. -/
def zeros (n : ℕ) : Chunk := ⟨.textBlob, .raw, 0, .zero, n, List.replicate n 0⟩

theorem length_frame_zeros {n size : ℕ} (h : size = 56 + n) : (zeros n).frame.length = size := by
  rw [Chunk.length_frame, zeros, List.length_replicate, h]

/-- A frame of 2^32 bytes is written with the length 0. -/
theorem writeTo_zeros {n : ℕ} (h : 2 ^ 32 = 56 + n) :
    (zeros n).writeTo [] = .ok ((zeros n).frame, 0) := by
  have hlen := length_frame_zeros h
  have htotal : (zeros n).totalLen = 0 := by
    rw [Chunk.totalLen, zeros, List.length_replicate, chunkHeaderSize, ← h, Nat.mod_self]
  have hfits : ([] : Bytes).length + (zeros n).frame.length ≤ maxFileSize := by
    rw [hlen]
    decide
  rw [Chunk.writeTo_of_le hfits, htotal, List.nil_append]

/-- A chunk of nearly four gigabytes does not come back. -/
theorem zeros_lost :
    ∃ file n, (zeros (2 ^ 32 - 56)).writeTo [] = .ok (file, n) ∧
      ¬(Chunk.readFrom file = .ok (zeros (2 ^ 32 - 56)) ∧ n = file.length) := by
  refine ⟨(zeros (2 ^ 32 - 56)).frame, 0, writeTo_zeros rfl, fun h => ?_⟩
  rw [length_frame_zeros (show 2 ^ 32 = 56 + (2 ^ 32 - 56) from rfl)] at h
  exact absurd h.2 (by decide)

/-! ## The mapped file -/

theorem ofExcept_ensure {p : Prop} [Decidable p] {e : Error} :
    Outcome.ofExcept (ensure p e) = Outcome.ensure p e := by
  rw [ensure, Outcome.ensure]
  split
  next => rfl
  next => rfl

/-- `raw_slice` -/
def MmapReader.rawSliceRun (m : MmapReader) (idx : ℕ) : Outcome Error Bytes :=
  match m.manifest.chunks[idx]? with
  | none => .error (.format ("idx " ++ toString idx ++ " out of range"))
  | some e => do
    let stop ← Outcome.unsigned 64 (e.offset + e.length)
    .ofExcept (ensure (stop ≤ m.map.length) (.format "chunk end past EOF"))
    Outcome.slice m.map e.offset stop

/-- `read_chunk` -/
def MmapReader.readChunkRun (m : MmapReader) (idx : ℕ) : Outcome Error Chunk := do
  let slice ← m.rawSliceRun idx
  .ofExcept (Chunk.readFrom slice)

/-- `raw_slice` panics exactly where the sum of the entry has no room. -/
theorem rawSliceRun_eq (m : MmapReader) (idx : ℕ) :
    m.rawSliceRun idx =
      if ∀ e ∈ m.manifest.chunks[idx]?, e.offset + e.length < 2 ^ 64 then
        .ofExcept (m.rawSlice idx)
      else .panic := by
  rw [MmapReader.rawSliceRun, MmapReader.rawSlice]
  cases m.manifest.chunks[idx]? with
  | none => rfl
  | some e =>
    by_cases hsum : e.offset + e.length < 2 ^ 64
    · rw [if_pos (by simpa using hsum)]
      simp only [Outcome.unsigned_of hsum, Outcome.ok_bind, Outcome.ofExcept_bind]
      rw [ofExcept_ensure]
      exact Outcome.ensure_bind_congr fun hle => Outcome.slice_of (Nat.le_add_right _ _) hle
    · rw [if_neg (by simpa using hsum)]
      simp only [Outcome.unsigned_eq_panic.mpr hsum, Outcome.panic_bind]

theorem readChunkRun_eq_panic {m : MmapReader} {idx : ℕ} :
    m.readChunkRun idx = .panic ↔ m.rawSliceRun idx = .panic := by
  rw [MmapReader.readChunkRun, Outcome.bind_eq_panic]
  simp

/-- When no slice panics. -/
theorem rawSliceRun_ne_panic {m : MmapReader} :
    (∀ idx, m.rawSliceRun idx ≠ .panic) ↔
      ∀ e ∈ m.manifest.chunks, e.offset + e.length < 2 ^ 64 := by
  refine ⟨fun h e he => ?_, fun h idx => ?_⟩
  · obtain ⟨idx, hidx⟩ := List.mem_iff_getElem?.mp he
    by_contra hsum
    refine h idx ?_
    rw [rawSliceRun_eq, if_neg (fun hfit => hsum (hfit e hidx))]
  · have hfit : ∀ e ∈ m.manifest.chunks[idx]?, e.offset + e.length < 2 ^ 64 := fun e he =>
      h e (List.mem_of_getElem? he)
    rw [rawSliceRun_eq, if_pos hfit]
    exact Outcome.ofExcept_ne_panic _

section Mmap

variable [SynxLibs]

/-- `MmapReader::open` -/
def MmapReader.openRun (map : Bytes) : Outcome Error MmapReader := do
  .ofExcept (ensure (headerSize + footerSize ≤ map.length)
    (.format "file smaller than header+footer"))
  let start ← Outcome.slice map 0 4
  .ofExcept (ensure (start = magic) (.format "not a .synx file"))
  let hdr ← Outcome.slice map 0 headerSize
  let header ← .ofExcept (SynxHeader.readFrom hdr)
  let ftOff ← Outcome.minus map.length footerSize
  let ft ← Outcome.slice map ftOff map.length
  let footer ← .ofExcept (SynxFooter.readFrom ft)
  let stop ← Outcome.unsigned 64 (header.manifestOffset + 16)
  .ofExcept (ensure (stop ≤ map.length) (.format "manifest offset past EOF"))
  let rest ← Outcome.slice map header.manifestOffset map.length
  let manifest ← .ofExcept (loadManifest rest footer.manifestHash "manifest hash mismatch")
  .ok ⟨map, header, footer, manifest⟩

/-- The file is opened, and its chunks are read, without a panic. -/
def PanicFree (file : Bytes) : Prop :=
  MmapReader.openRun file ≠ .panic ∧
    ∀ m, MmapReader.openRun file = .ok m →
      ∀ idx, m.rawSliceRun idx ≠ .panic ∧ m.readChunkRun idx ≠ .panic

/-! ## Sums with room -/

/-- The header and the footer that a file begins and ends with. -/
def ends (map : Bytes) : Except Error (SynxHeader × SynxFooter) := do
  ensure (headerSize + footerSize ≤ map.length) (.format "file smaller than header+footer")
  ensure (Bytes.slice map 0 4 = magic) (.format "not a .synx file")
  let header ← SynxHeader.readFrom (Bytes.slice map 0 headerSize)
  let footer ← SynxFooter.readFrom (map.drop (map.length - footerSize))
  .ok (header, footer)

/-- The sums of the offsets and the lengths in a file have room. -/
structure SumsFit (file : Bytes) : Prop where
  manifest : ∀ header footer, ends file = .ok (header, footer) → header.manifestOffset + 16 < 2 ^ 64
  chunks : ∀ header footer manifest, ends file = .ok (header, footer) →
    loadManifest (file.drop header.manifestOffset) footer.manifestHash "manifest hash mismatch" =
      .ok manifest →
    ∀ e ∈ manifest.chunks, e.offset + e.length < 2 ^ 64

/-- `open`, once the header and the footer are there. -/
def MmapReader.openAt (map : Bytes) (header : SynxHeader) (footer : SynxFooter) :
    Except Error MmapReader := do
  ensure (header.manifestOffset + 16 ≤ map.length) (.format "manifest offset past EOF")
  let manifest ← loadManifest (map.drop header.manifestOffset) footer.manifestHash
    "manifest hash mismatch"
  .ok ⟨map, header, footer, manifest⟩

theorem openFile_eq_bind (map : Bytes) :
    MmapReader.openFile map = ends map >>= fun p => MmapReader.openAt map p.1 p.2 := by
  simp only [MmapReader.openFile, ends, MmapReader.openAt, bind_assoc]
  rfl

/-- Only the sum for the manifest can go wrong. -/
theorem openRun_eq_bind (map : Bytes) :
    MmapReader.openRun map = .ofExcept (ends map) >>= fun p =>
      Outcome.unsigned 64 (p.1.manifestOffset + 16) >>= fun _ =>
        .ofExcept (MmapReader.openAt map p.1 p.2) := by
  simp only [MmapReader.openRun, ends, Outcome.ofExcept_bind, bind_assoc]
  rw [ofExcept_ensure]
  refine Outcome.ensure_bind_congr fun hsize => ?_
  have hheader : headerSize ≤ map.length := by omega
  have hfooter : footerSize ≤ map.length := by omega
  have hmagic : 4 ≤ map.length := le_trans (by decide) hheader
  rw [Outcome.slice_of (Nat.zero_le 4) hmagic, Outcome.slice_of (Nat.zero_le headerSize) hheader,
    Outcome.minus_of hfooter, Outcome.ok_bind, Outcome.ok_bind]
  rw [ofExcept_ensure, ofExcept_ensure]
  refine Outcome.ensure_bind_congr fun _ => bind_congr fun header => ?_
  rw [Outcome.ok_bind, Outcome.slice_length (Nat.sub_le _ _), Outcome.ok_bind]
  refine bind_congr fun footer => ?_
  change _ = Outcome.unsigned 64 (header.manifestOffset + 16) >>= fun _ =>
    .ofExcept (MmapReader.openAt map header footer)
  by_cases hsum : header.manifestOffset + 16 < 2 ^ 64
  · rw [Outcome.unsigned_of hsum, Outcome.ok_bind, Outcome.ok_bind, MmapReader.openAt,
      Outcome.ofExcept_bind]
    rw [ofExcept_ensure]
    refine Outcome.ensure_bind_congr fun hle => ?_
    rw [Outcome.slice_length (Nat.le_of_add_right_le hle), Outcome.ok_bind, Outcome.ofExcept_bind]
    rfl
  · rw [Outcome.unsigned_eq_panic.mpr hsum, Outcome.panic_bind, Outcome.panic_bind]

/-- **The mapped file is the file**, as long as the sum for the manifest has room. -/
theorem openRun_eq {file : Bytes}
    (hfit : ∀ header footer, ends file = .ok (header, footer) →
      header.manifestOffset + 16 < 2 ^ 64) :
    MmapReader.openRun file = .ofExcept (MmapReader.openFile file) := by
  rw [openRun_eq_bind, openFile_eq_bind, Outcome.ofExcept_bind]
  cases hends : ends file with
  | error e => rfl
  | ok p =>
    change (Outcome.unsigned 64 (p.1.manifestOffset + 16) >>= _) = _
    rw [Outcome.unsigned_of (hfit p.1 p.2 hends)]
    rfl

/-- Without room it panics. -/
theorem openRun_eq_panic {file : Bytes} {header : SynxHeader} {footer : SynxFooter}
    (hends : ends file = .ok (header, footer)) (hsum : ¬header.manifestOffset + 16 < 2 ^ 64) :
    MmapReader.openRun file = .panic := by
  rw [openRun_eq_bind, hends]
  change (Outcome.unsigned 64 (header.manifestOffset + 16) >>= _) = _
  rw [Outcome.unsigned_eq_panic.mpr hsum]
  rfl

/-- When a file is opened. -/
theorem openFile_ok_iff {file : Bytes} {m : MmapReader} :
    MmapReader.openFile file = .ok m ↔
      ends file = .ok (m.header, m.footer) ∧ m.map = file ∧
        m.header.manifestOffset + 16 ≤ file.length ∧
        loadManifest (file.drop m.header.manifestOffset) m.footer.manifestHash
          "manifest hash mismatch" = .ok m.manifest := by
  rw [openFile_eq_bind, bind_eq_ok]
  refine ⟨?_, ?_⟩
  · rintro ⟨p, hends, h⟩
    obtain ⟨u, hle, h⟩ := bind_eq_ok.mp h
    obtain ⟨manifest, hload, h⟩ := bind_eq_ok.mp h
    obtain rfl := Except.ok.inj h
    exact ⟨hends, rfl, ensure_ok.mp hle, hload⟩
  · rintro ⟨hends, rfl, hle, hload⟩
    exact ⟨_, hends, bind_eq_ok.mpr ⟨(), ensure_ok.mpr hle, bind_eq_ok.mpr ⟨_, hload, rfl⟩⟩⟩

/-- A manifest that is loaded stands within the file. -/
theorem length_of_loadManifest {b : Bytes} {hash : Digest} {complaint : String} {m : Manifest}
    (h : loadManifest b hash complaint = .ok m) : 16 ≤ b.length := by
  obtain ⟨c, hread, -⟩ := bind_eq_ok.mp h
  obtain ⟨reserved, rest, hreserved, -, -, rfl⟩ := Chunk.readFrom_ok hread
  rw [List.length_append, Chunk.length_frameWith hreserved]
  omega

/-- **No panic, and when.** -/
theorem panicFree_iff (file : Bytes) : PanicFree file ↔ SumsFit file := by
  refine ⟨fun ⟨hopen, hchunks⟩ => ?_, fun hfit => ?_⟩
  · have hmanifest : ∀ header footer, ends file = .ok (header, footer) →
        header.manifestOffset + 16 < 2 ^ 64 := by
      intro header footer hends
      by_contra hsum
      exact hopen (openRun_eq_panic hends hsum)
    refine ⟨hmanifest, fun header footer manifest hends hload => ?_⟩
    have hle := length_of_loadManifest hload
    rw [List.length_drop] at hle
    have hend : header.manifestOffset + 16 ≤ file.length := by omega
    have hm : MmapReader.openFile file = .ok ⟨file, header, footer, manifest⟩ :=
      openFile_ok_iff.mpr ⟨hends, rfl, hend, hload⟩
    rw [openRun_eq hmanifest] at hchunks
    exact rawSliceRun_ne_panic.mp fun idx =>
      (hchunks _ (Outcome.ofExcept_eq_ok.mpr hm) idx).1
  · rw [PanicFree, openRun_eq hfit.manifest]
    refine ⟨Outcome.ofExcept_ne_panic _, fun m hm idx => ?_⟩
    obtain ⟨hends, -, -, hload⟩ := openFile_ok_iff.mp (Outcome.ofExcept_eq_ok.mp hm)
    have hslice := rawSliceRun_ne_panic.mpr (hfit.chunks _ _ _ hends hload) idx
    exact ⟨hslice, fun h => hslice (readChunkRun_eq_panic.mp h)⟩

end Mmap

/-- A header and a footer, and nothing between them, are what the file begins and ends with. -/
theorem ends_of_bytes {h : SynxHeader} (hversion : h.version = version)
    (hoffset : h.manifestOffset < 2 ^ 64) (f : SynxFooter) :
    ∃ header footer, ends (h.bytes ++ f.bytes) = .ok (header, footer) ∧
      header.manifestOffset = h.manifestOffset := by
  obtain ⟨header, hheader, hsame⟩ := SynxHeader.readFrom_bytes hversion hoffset []
  obtain ⟨footer, hfooter, -⟩ := f.readFrom_bytes
  rw [List.append_nil] at hheader
  have hsize : headerSize + footerSize ≤ (h.bytes ++ f.bytes).length := by
    rw [List.length_append, h.length_bytes, f.length_bytes]
  have hmagic : Bytes.slice (h.bytes ++ f.bytes) 0 4 = magic := by
    rw [SynxHeader.bytes, List.append_assoc]
    exact Bytes.slice_left (by decide +kernel) _
  have hslice : Bytes.slice (h.bytes ++ f.bytes) 0 headerSize = h.bytes :=
    Bytes.slice_left h.length_bytes _
  have hdrop : (h.bytes ++ f.bytes).drop ((h.bytes ++ f.bytes).length - footerSize) = f.bytes := by
    refine List.drop_left' ?_
    rw [List.length_append, f.length_bytes, Nat.add_sub_cancel]
  refine ⟨header, footer, bind_eq_ok.mpr ⟨(), ensure_ok.mpr hsize, bind_eq_ok.mpr ⟨(),
    ensure_ok.mpr hmagic, bind_eq_ok.mpr ⟨header, ?_, bind_eq_ok.mpr ⟨footer, ?_, rfl⟩⟩⟩⟩, hsame⟩
  · rw [hslice, hheader]
  · rw [hdrop, hfooter]

/-- The header of a file whose manifest is said to stand at the last offset that there is. -/
def farHeader : SynxHeader := ⟨version, 1, 2 ^ 64 - 1, 0, 0, Bytes.fixed 16 []⟩

/-- A header that points past the end of all files. -/
theorem farHeader_panics :
    let _ := SynxLibs.plain
    ¬PanicFree (farHeader.bytes ++ SynxFooter.bytes ⟨.zero, none, none⟩) := by
  intro _
  obtain ⟨header, footer, hends, hoffset⟩ := ends_of_bytes (h := farHeader) rfl (by decide)
    ⟨.zero, none, none⟩
  refine fun h => h.1 (openRun_eq_panic hends ?_)
  rw [hoffset]
  decide

end SynapseMemory.Synx
