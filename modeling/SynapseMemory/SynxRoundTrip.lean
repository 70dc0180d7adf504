import SynapseMemory.Synx

/-!
# A container that was written is read back

A finished file is its header, the frames of its chunks, the frame of the manifest, and the footer
(`writeFile_ok`). The manifest gives each chunk the offset at which its frame stands, as long as the
length field of every frame before it is the length of the frame, which is so for frames shorter
than 2^32 bytes. Both readers then find the manifest where the header says (`openFile_layout`,
`openMmap_layout`) and each frame where the manifest says.
-/

namespace SynapseMemory.Synx

/-- The references to chunks whose frames stand one after the other. -/
def refsFrom (start : ℕ) : List Chunk → List ChunkRef
  | [] => []
  | c :: rest => ⟨c.kind.toU16, start, c.totalLen, c.hash⟩ :: refsFrom (start + c.totalLen) rest

/-- Each reference starts where the one before it ends. -/
def Contiguous : ℕ → List ChunkRef → ℕ → Prop
  | start, [], stop => start = stop
  | start, x :: rest, stop => x.offset = start ∧ Contiguous (start + x.length) rest stop

theorem contiguous_refsFrom (start : ℕ) (chunks : List Chunk) :
    Contiguous start (refsFrom start chunks) (start + (chunks.map Chunk.totalLen).sum) := by
  induction chunks generalizing start with
  | nil => rfl
  | cons c rest ih =>
    rw [List.map_cons, List.sum_cons, ← Nat.add_assoc]
    exact ⟨rfl, ih _⟩

/-- The bytes of the chunks of a file. -/
def frames (chunks : List Chunk) : Bytes := (chunks.map Chunk.frame).flatten

/-- Frames with right lengths stand at the offsets of their references. -/
theorem getElem?_refsFrom {chunks : List Chunk} (hfit : ∀ c ∈ chunks, c.totalLen = c.frame.length)
    {i : ℕ} {c : Chunk} (hc : chunks[i]? = some c) (start : ℕ) :
    ∃ before after, frames chunks = before ++ (c.frame ++ after) ∧
      (refsFrom start chunks)[i]? =
        some ⟨c.kind.toU16, start + before.length, c.totalLen, c.hash⟩ := by
  induction chunks generalizing i start with
  | nil => cases hc
  | cons x rest ih =>
    cases i with
    | zero =>
      obtain rfl := Option.some.inj hc
      exact ⟨[], frames rest, rfl, rfl⟩
    | succ i =>
      obtain ⟨before, after, hframes, href⟩ :=
        ih (fun c hc => hfit c (List.mem_cons_of_mem _ hc)) hc (start + x.totalLen)
      refine ⟨x.frame ++ before, after, ?_, ?_⟩
      · change x.frame ++ frames rest = _
        rw [hframes, List.append_assoc]
      · rw [refsFrom, List.getElem?_cons_succ, href, List.length_append, ← Nat.add_assoc,
          hfit x List.mem_cons_self]

/-! ## What the writer leaves -/

/-- What a new file has. -/
theorem create_ok {now : ℕ} {flags : UInt16} {w : SynxWriter}
    (h : SynxWriter.create now flags = .ok w) :
    w.file = w.header.bytes ∧ w.header.version = version ∧ w.offset = headerSize ∧
      w.manifest.chunks = [] := by
  obtain ⟨file, hfile, h⟩ := bind_eq_ok.mp h
  obtain rfl := Except.ok.inj h
  exact ⟨(writeAll_ok hfile).1, rfl, rfl, rfl⟩

section Writer

variable [SynxLibs]

/-- What an append adds. -/
theorem append_ok {w w' : SynxWriter} {e : Entry} (h : w.append e = .ok w') :
    ∃ c, Chunk.new e.kind e.codec e.data = .ok c ∧ w'.file = w.file ++ c.frame ∧
      w'.header = w.header ∧ w'.offset = w.offset + c.totalLen ∧
      w'.manifest.chunks =
        w.manifest.chunks ++ [⟨c.kind.toU16, w.offset, c.totalLen, c.hash⟩] := by
  obtain ⟨c, hc, h⟩ := bind_eq_ok.mp h
  obtain ⟨file, hfile, h⟩ := bind_eq_ok.mp h
  obtain rfl := Except.ok.inj h
  exact ⟨c, hc, (writeAll_ok hfile).1, rfl, rfl, rfl⟩

/-- The chunks of the entries, one for each in order. -/
def Built (entries : List Entry) (chunks : List Chunk) : Prop :=
  List.Forall₂ (fun e c => Chunk.new e.kind e.codec e.data = .ok c) entries chunks

/-- Each entry has its chunk. -/
theorem Built.chunk {entries : List Entry} {chunks : List Chunk} (h : Built entries chunks) {i : ℕ}
    {e : Entry} (he : entries[i]? = some e) :
    ∃ c, chunks[i]? = some c ∧ Chunk.new e.kind e.codec e.data = .ok c := by
  induction h generalizing i with
  | nil => cases he
  | @cons _ c _ _ hnew _ ih =>
    cases i with
    | zero =>
      obtain rfl := Option.some.inj he
      exact ⟨c, rfl, hnew⟩
    | succ i => exact ih he

/-- Each chunk has its entry. -/
theorem Built.entry {entries : List Entry} {chunks : List Chunk} (h : Built entries chunks)
    {c : Chunk} (hc : c ∈ chunks) : ∃ e ∈ entries, Chunk.new e.kind e.codec e.data = .ok c := by
  induction h with
  | nil => cases hc
  | @cons e _ _ _ hnew _ ih =>
    rcases List.mem_cons.mp hc with rfl | hc
    · exact ⟨e, List.mem_cons_self, hnew⟩
    · obtain ⟨x, hx, hnew⟩ := ih hc
      exact ⟨x, List.mem_cons_of_mem _ hx, hnew⟩

/-- The references name the kinds and the hashes of the data, in order. -/
theorem Built.refs {entries : List Entry} {chunks : List Chunk} (h : Built entries chunks)
    (start : ℕ) :
    List.Forall₂ (fun e x => x.kindRaw = e.kind.toU16 ∧ x.hash = ContentHash.blake3 e.data) entries
      (refsFrom start chunks) := by
  induction h generalizing start with
  | nil => exact .nil
  | cons hnew _ ih =>
    obtain ⟨hkind, hhash, -⟩ := Chunk.new_ok hnew
    exact .cons ⟨congrArg ChunkKind.toU16 hkind, hhash⟩ (ih _)

/-- All entries are appended, one after the other. -/
theorem appendAll_ok {entries : List Entry} {w w' : SynxWriter}
    (h : w.appendAll entries = .ok w') :
    ∃ chunks, Built entries chunks ∧ w'.file = w.file ++ frames chunks ∧ w'.header = w.header ∧
      w'.offset = w.offset + (chunks.map Chunk.totalLen).sum ∧
      w'.manifest.chunks = w.manifest.chunks ++ refsFrom w.offset chunks := by
  induction entries generalizing w with
  | nil =>
    obtain rfl := Except.ok.inj h
    exact ⟨[], .nil, (List.append_nil _).symm, rfl, rfl, (List.append_nil _).symm⟩
  | cons e rest ih =>
    rw [SynxWriter.appendAll, List.foldlM_cons] at h
    obtain ⟨w₁, hw₁, h⟩ := bind_eq_ok.mp h
    obtain ⟨c, hc, hfile, hheader, hoffset, hmanifest⟩ := append_ok hw₁
    obtain ⟨chunks, hbuilt, hfile', hheader', hoffset', hmanifest'⟩ := ih h
    refine ⟨c :: chunks, .cons hc hbuilt, ?_, hheader'.trans hheader, ?_, ?_⟩
    · rw [hfile', hfile, List.append_assoc]
      rfl
    · rw [hoffset', hoffset, List.map_cons, List.sum_cons, Nat.add_assoc]
    · rw [hmanifest', hmanifest, hoffset, List.append_assoc]
      rfl

/-- The manifest that the writer makes of the entries. -/
def writtenManifest (now : ℕ) (flags : UInt16) (entries : List Entry) : Except Error Manifest := do
  let w ← SynxWriter.create now flags
  let w ← w.appendAll entries
  .ok w.manifest

/-- The chunks that the writer encodes: those of the entries, and that of the manifest. -/
def encoded (now : ℕ) (flags : UInt16) (entries : List Entry) : List Chunk :=
  let manifestChunk := do
    let w ← SynxWriter.create now flags
    let w ← w.appendAll entries
    w.manifestChunk
  (entries.filterMap fun e => (Chunk.new e.kind e.codec e.data).toOption) ++
    manifestChunk.toOption.toList

theorem mem_encoded {now : ℕ} {flags : UInt16} {entries : List Entry} {e : Entry} {c : Chunk}
    (he : e ∈ entries) (hc : Chunk.new e.kind e.codec e.data = .ok c) :
    c ∈ encoded now flags entries :=
  List.mem_append_left _ (List.mem_filterMap.mpr ⟨e, he, congrArg Except.toOption hc⟩)

theorem manifestChunk_mem_encoded {now : ℕ} {flags : UInt16} {entries : List Entry}
    {w w' : SynxWriter} {c : Chunk} (hcreate : SynxWriter.create now flags = .ok w)
    (happend : w.appendAll entries = .ok w') (hc : w'.manifestChunk = .ok c) :
    c ∈ encoded now flags entries := by
  refine List.mem_append_right _ (Option.mem_toList.mpr ?_)
  have hall : (SynxWriter.create now flags >>= fun w => w.appendAll entries >>= fun w' =>
      w'.manifestChunk) = .ok c :=
    bind_eq_ok.mpr ⟨w, hcreate, bind_eq_ok.mpr ⟨w', happend, hc⟩⟩
  exact congrArg Except.toOption hall

/-- The parts of a finished file. -/
structure Layout (entries : List Entry) where
  header : SynxHeader
  chunks : List Chunk
  manifestBytes : Bytes
  manifestChunk : Chunk
  version_eq : header.version = version
  offset_eq : header.manifestOffset = headerSize + (chunks.map Chunk.totalLen).sum
  built : Built entries chunks
  toJson_eq : SynxLibs.toJson ⟨refsFrom headerSize chunks⟩ = .ok manifestBytes
  new_eq : Chunk.new .schemaDef .zstd manifestBytes = .ok manifestChunk

/-- The footer that is written. -/
def Layout.footer {entries : List Entry} (l : Layout entries) : SynxFooter :=
  ⟨l.manifestChunk.hash, none, none⟩

/-- The bytes of the whole file. -/
def Layout.file {entries : List Entry} (l : Layout entries) : Bytes :=
  l.header.bytes ++ (frames l.chunks ++ (l.manifestChunk.frame ++ l.footer.bytes))

/-- What is written at the end. -/
theorem finish_ok {w : SynxWriter} {file : Bytes} (h : w.finish = .ok file) :
    ∃ mb mc, SynxLibs.toJson w.manifest = .ok mb ∧ Chunk.new .schemaDef .zstd mb = .ok mc ∧
      w.manifestChunk = .ok mc ∧
      w.file.length + (mc.frame ++ SynxFooter.bytes ⟨mc.hash, none, none⟩).length ≤ maxFileSize ∧
      ∃ header : SynxHeader, header.version = w.header.version ∧ header.manifestOffset = w.offset ∧
        file = header.bytes ++
          (w.file ++ (mc.frame ++ SynxFooter.bytes ⟨mc.hash, none, none⟩)).drop headerSize := by
  obtain ⟨mc, hmc, h⟩ := bind_eq_ok.mp h
  obtain ⟨file₁, hfile₁, h⟩ := bind_eq_ok.mp h
  obtain ⟨file₂, hfile₂, h⟩ := bind_eq_ok.mp h
  obtain ⟨mb, hmb, hnew⟩ := bind_eq_ok.mp hmc
  obtain ⟨rfl, -⟩ := writeAll_ok hfile₁
  obtain ⟨rfl, hle⟩ := writeAll_ok hfile₂
  rw [List.append_assoc] at hle h
  rw [List.length_append] at hle
  exact ⟨mb, mc, hmb, hnew, hmc, hle,
    { w.header with manifestOffset := w.offset, footerOffset := w.offset + mc.totalLen }, rfl, rfl,
    (Except.ok.inj h).symm⟩

/-- A file that was written has a layout. -/
theorem writeFile_ok {now : ℕ} {flags : UInt16} {entries : List Entry} {file : Bytes}
    (h : writeFile now flags entries = .ok file) :
    ∃ l : Layout entries, file = l.file ∧ file.length ≤ maxFileSize ∧
      writtenManifest now flags entries = .ok ⟨refsFrom headerSize l.chunks⟩ ∧
      l.manifestChunk ∈ encoded now flags entries := by
  obtain ⟨w, hcreate, h⟩ := bind_eq_ok.mp h
  obtain ⟨w', happend, hfinish⟩ := bind_eq_ok.mp h
  obtain ⟨hfile, hversion, hstart, hnone⟩ := create_ok hcreate
  obtain ⟨chunks, hbuilt, hfile', hheader, hoffset, hmanifest⟩ := appendAll_ok happend
  obtain ⟨mb, mc, hmb, hnew, hmc, hle, header, hversion', hoffset', rfl⟩ := finish_ok hfinish
  have hrefs : w'.manifest = ⟨refsFrom headerSize chunks⟩ := by
    rw [hnone, hstart, List.nil_append] at hmanifest
    exact congrArg Manifest.mk hmanifest
  have hlen : w.file.length = headerSize := by rw [hfile, SynxHeader.length_bytes]
  have hbody : (w'.file ++ (mc.frame ++ SynxFooter.bytes ⟨mc.hash, none, none⟩)).drop headerSize =
      frames chunks ++ (mc.frame ++ SynxFooter.bytes ⟨mc.hash, none, none⟩) := by
    rw [hfile', List.append_assoc, List.drop_left' hlen]
  have hwritten : writtenManifest now flags entries = .ok ⟨refsFrom headerSize chunks⟩ :=
    bind_eq_ok.mpr ⟨w, hcreate, bind_eq_ok.mpr ⟨w', happend, congrArg Except.ok hrefs⟩⟩
  refine ⟨⟨header, chunks, mb, mc, ?_, ?_, hbuilt, hrefs ▸ hmb, hnew⟩, ?_, ?_, hwritten,
    manifestChunk_mem_encoded hcreate happend hmc⟩
  · rw [hversion', hheader, hversion]
  · rw [hoffset', hoffset, hstart]
  · rw [hbody]
    rfl
  · rw [hbody, List.length_append, SynxHeader.length_bytes, List.length_append, ← hlen,
      ← Nat.add_assoc, ← List.length_append, ← hfile']
    exact hle

end Writer

/-! ## What the readers find -/

section Readers

variable [SynxLibs] {entries : List Entry} (l : Layout entries)

/-- The length fields of the frames are their lengths. -/
structure Layout.Fits : Prop where
  chunks : ∀ c ∈ l.chunks, c.frame.length < 2 ^ 32
  manifestChunk : l.manifestChunk.frame.length < 2 ^ 32
  length_le : l.file.length ≤ maxFileSize

variable {l}

theorem Layout.Fits.totalLen (hfit : l.Fits) : ∀ c ∈ l.chunks, c.totalLen = c.frame.length :=
  fun c hc => Chunk.totalLen_of_lt (hfit.chunks c hc)

/-- The frames end where the manifest begins. -/
theorem Layout.Fits.offset_eq (hfit : l.Fits) :
    l.header.manifestOffset = headerSize + (frames l.chunks).length := by
  rw [l.offset_eq, frames, List.length_flatten, List.map_map]
  exact congrArg (headerSize + List.sum ·) (List.map_congr_left hfit.totalLen)

theorem Layout.Fits.drop_offset (hfit : l.Fits) :
    l.file.drop l.header.manifestOffset = l.manifestChunk.frame ++ l.footer.bytes := by
  rw [hfit.offset_eq, Layout.file, ← List.append_assoc]
  refine List.drop_left' ?_
  rw [List.length_append, SynxHeader.length_bytes]

theorem Layout.length_file (l : Layout entries) : l.file.length =
    headerSize + ((frames l.chunks).length + (l.manifestChunk.frame.length + footerSize)) := by
  simp only [file, List.length_append, SynxHeader.length_bytes, SynxFooter.length_bytes]

theorem Layout.drop_footer (l : Layout entries) :
    l.file.drop (l.file.length - footerSize) = l.footer.bytes := by
  rw [length_file, file, ← List.append_assoc, ← List.append_assoc]
  refine List.drop_left' ?_
  simp only [List.length_append, SynxHeader.length_bytes]
  omega

/-- The manifest is loaded as it was written. -/
theorem Layout.Fits.loadManifest (hfit : l.Fits) (complaint : String) :
    loadManifest (l.file.drop l.header.manifestOffset) l.manifestChunk.hash complaint =
      .ok ⟨refsFrom headerSize l.chunks⟩ := by
  obtain ⟨-, -, hlen, hdecode⟩ := Chunk.new_ok l.new_eq
  rw [hfit.drop_offset]
  refine bind_eq_ok.mpr ⟨l.manifestChunk, ?_, bind_eq_ok.mpr ⟨(), ensure_ok.mpr rfl, ?_⟩⟩
  · exact Chunk.readFrom_frame hfit.manifestChunk hlen _
  · exact bind_eq_ok.mpr ⟨l.manifestBytes, hdecode, SynxLibs.from_to _ _ l.toJson_eq⟩

/-- The header is read as it was written. -/
theorem Layout.Fits.readHeader (hfit : l.Fits) (rest : Bytes) :
    ∃ h, SynxHeader.readFrom (l.header.bytes ++ rest) = .ok h ∧
      h.manifestOffset = l.header.manifestOffset := by
  refine SynxHeader.readFrom_bytes l.version_eq ?_ rest
  have hle := hfit.length_le
  rw [l.length_file] at hle
  rw [hfit.offset_eq]
  exact lt_of_le_of_lt (by omega) (show maxFileSize < 2 ^ 64 by decide)

/-- `SynxReader` opens the file and finds the manifest. -/
theorem Layout.Fits.openFile (hfit : l.Fits) :
    ∃ r, SynxReader.openFile l.file = .ok r ∧ r.inner = l.file ∧
      r.header.manifestOffset = l.header.manifestOffset ∧
      r.manifest = ⟨refsFrom headerSize l.chunks⟩ := by
  obtain ⟨h, hheader, hoffset⟩ := hfit.readHeader
    (frames l.chunks ++ (l.manifestChunk.frame ++ l.footer.bytes))
  obtain ⟨f, hfooter, hhash⟩ := l.footer.readFrom_bytes
  have hlen : footerSize ≤ l.file.length := by
    rw [l.length_file]
    omega
  refine ⟨⟨l.file, h, f, _⟩, ?_, rfl, hoffset, rfl⟩
  refine bind_eq_ok.mpr ⟨h, hheader, bind_eq_ok.mpr ⟨(), ensure_ok.mpr hlen, ?_⟩⟩
  refine bind_eq_ok.mpr ⟨f, l.drop_footer ▸ hfooter, bind_eq_ok.mpr ⟨_, ?_, rfl⟩⟩
  rw [hoffset, hhash]
  exact hfit.loadManifest _

/-- `MmapReader` opens the file and finds the manifest. -/
theorem Layout.Fits.openMmap (hfit : l.Fits) :
    ∃ m, MmapReader.openFile l.file = .ok m ∧ m.map = l.file ∧
      m.manifest = ⟨refsFrom headerSize l.chunks⟩ := by
  obtain ⟨h, hheader, hoffset⟩ := hfit.readHeader []
  obtain ⟨f, hfooter, hhash⟩ := l.footer.readFrom_bytes
  have hlen := l.length_file
  have hslice : Bytes.slice l.file 0 headerSize = l.header.bytes :=
    Bytes.slice_left l.header.length_bytes _
  have hmagic : Bytes.slice l.file 0 4 = magic := by
    rw [Layout.file, SynxHeader.bytes, List.append_assoc]
    exact Bytes.slice_left (by decide +kernel) _
  have hmanifest : h.manifestOffset + 16 ≤ l.file.length := by
    rw [hoffset, hfit.offset_eq, hlen, l.manifestChunk.length_frame]
    omega
  refine ⟨⟨l.file, h, f, _⟩, ?_, rfl, rfl⟩
  refine bind_eq_ok.mpr ⟨(), ensure_ok.mpr (by omega), ?_⟩
  refine bind_eq_ok.mpr ⟨(), ensure_ok.mpr hmagic, ?_⟩
  refine bind_eq_ok.mpr ⟨h, by rw [hslice, ← hheader, List.append_nil], ?_⟩
  refine bind_eq_ok.mpr ⟨f, l.drop_footer ▸ hfooter, ?_⟩
  refine bind_eq_ok.mpr ⟨(), ensure_ok.mpr hmanifest, bind_eq_ok.mpr ⟨_, ?_, rfl⟩⟩
  rw [hoffset, hhash]
  exact hfit.loadManifest _

/-- Both readers read the chunk that was written. -/
theorem Layout.Fits.readChunk (hfit : l.Fits) {r : SynxReader} {m : MmapReader}
    (hinner : r.inner = l.file) (hr : r.manifest = ⟨refsFrom headerSize l.chunks⟩)
    (hmap : m.map = l.file) (hm : m.manifest = ⟨refsFrom headerSize l.chunks⟩) {i : ℕ} {c : Chunk}
    (hc : l.chunks[i]? = some c) (hlen : c.uncompressedLen < 2 ^ 64) :
    r.readChunkAt i = .ok c ∧ m.readChunk i = .ok c := by
  obtain ⟨before, after, hframes, href⟩ := getElem?_refsFrom hfit.totalLen hc headerSize
  have hfits : c.frame.length < 2 ^ 32 := hfit.chunks c (List.mem_of_getElem? hc)
  have hparts : l.file = (l.header.bytes ++ before) ++
      (c.frame ++ (after ++ (l.manifestChunk.frame ++ l.footer.bytes))) := by
    simp only [Layout.file, hframes, List.append_assoc]
  have hbefore : (l.header.bytes ++ before).length = headerSize + before.length := by
    rw [List.length_append, SynxHeader.length_bytes]
  have hslice : Bytes.slice l.file (headerSize + before.length)
      (headerSize + before.length + c.totalLen) = c.frame := by
    rw [hparts, ← Nat.add_zero (headerSize + before.length), Nat.add_assoc _ 0, Nat.zero_add,
      Bytes.slice_right hbefore, Bytes.slice_left (Chunk.totalLen_of_lt hfits).symm]
  refine ⟨?_, ?_⟩
  · rw [SynxReader.readChunkAt, hr, href, hinner]
    change Chunk.readFrom (l.file.drop (headerSize + before.length)) = _
    rw [hparts, List.drop_left' hbefore]
    exact Chunk.readFrom_frame hfits hlen _
  · have hend : headerSize + before.length + c.totalLen ≤ l.file.length := by
      rw [hparts, List.length_append, hbefore, List.length_append, Chunk.totalLen_of_lt hfits]
      omega
    rw [MmapReader.readChunk, MmapReader.rawSlice, hm, href, hmap]
    refine bind_eq_ok.mpr ⟨c.frame, bind_eq_ok.mpr ⟨(), ensure_ok.mpr hend, ?_⟩, ?_⟩
    · rw [← hslice]
    · rw [← List.append_nil c.frame]
      exact Chunk.readFrom_frame hfits hlen []

/-- **The round trip.** -/
theorem round_trip {now : ℕ} {flags : UInt16} {file : Bytes}
    (hwrite : writeFile now flags entries = .ok file)
    (hfits : ∀ c ∈ encoded now flags entries, c.frame.length < 2 ^ 32) :
    ∃ r m, SynxReader.openFile file = .ok r ∧ MmapReader.openFile file = .ok m ∧
      m.manifest = r.manifest ∧
      List.Forall₂ (fun e x => x.kindRaw = e.kind.toU16 ∧ x.hash = ContentHash.blake3 e.data)
        entries r.manifest.chunks ∧
      Contiguous headerSize r.manifest.chunks r.header.manifestOffset ∧
      ∀ i e, entries[i]? = some e →
        ∃ c, r.readChunkAt i = .ok c ∧ m.readChunk i = .ok c ∧ c.decode = .ok e.data := by
  obtain ⟨l, rfl, hle, -, hencoded⟩ := writeFile_ok hwrite
  have hfit : l.Fits := by
    refine ⟨fun c hc => ?_, hfits _ hencoded, hle⟩
    obtain ⟨e, he, hnew⟩ := l.built.entry hc
    exact hfits c (mem_encoded he hnew)
  obtain ⟨r, hopen, hinner, hoffset, hr⟩ := hfit.openFile
  obtain ⟨m, hmopen, hmap, hm⟩ := hfit.openMmap
  refine ⟨r, m, hopen, hmopen, hm.trans hr.symm, ?_, ?_, fun i e he => ?_⟩
  · rw [hr]
    exact l.built.refs headerSize
  · rw [hr, hoffset, l.offset_eq]
    exact contiguous_refsFrom headerSize l.chunks
  · obtain ⟨c, hc, hnew⟩ := l.built.chunk he
    obtain ⟨-, -, hlen, hdecode⟩ := Chunk.new_ok hnew
    obtain ⟨hread, hmread⟩ := hfit.readChunk hinner hr hmap hm hc hlen
    exact ⟨c, hread, hmread, hdecode⟩

end Readers

/-! ## A plain text format -/

/-- The fields of a reference in a fixed width. -/
def ChunkRef.plain (x : ChunkRef) : Bytes :=
  Bytes.ofNat 2 x.kindRaw ++ (Bytes.ofNat 8 x.offset ++ (Bytes.ofNat 8 x.length ++ x.hash.bytes))

/-- A plain encoding of the manifest: the numbers and the hash of each chunk, one after the
other. -/
def Manifest.toPlain (m : Manifest) : Except Error Bytes := do
  ensure (∀ x ∈ m.chunks, x.kindRaw < 256 ^ 2 ∧ x.offset < 256 ^ 8 ∧ x.length < 256 ^ 8)
    (.format "number out of range")
  .ok (m.chunks.flatMap ChunkRef.plain)

/-- The chunks that are read back, as many as the fuel allows. -/
def refsOfPlain : ℕ → Bytes → Except Error (List ChunkRef)
  | _, [] => .ok []
  | 0, _ :: _ => .error .eof
  | n + 1, b :: bs => do
    let (kindRaw, b) ← readExact 2 (b :: bs)
    let (offset, b) ← readExact 8 b
    let (length, b) ← readExact 8 b
    let (hash, b) ← readExact 32 b
    let rest ← refsOfPlain n b
    .ok (⟨Bytes.toNat kindRaw, Bytes.toNat offset, Bytes.toNat length, Digest.ofBytes hash⟩ :: rest)

theorem length_flatMap_plain (refs : List ChunkRef) :
    (refs.flatMap ChunkRef.plain).length = 50 * refs.length := by
  induction refs with
  | nil => rfl
  | cons x rest ih =>
    rw [List.flatMap_cons, List.length_append, ih, List.length_cons]
    simp [ChunkRef.plain, Digest.length_eq]
    omega

/-- The plain encoding is read back. -/
theorem refsOfPlain_plain {refs : List ChunkRef}
    (hfits : ∀ x ∈ refs, x.kindRaw < 256 ^ 2 ∧ x.offset < 256 ^ 8 ∧ x.length < 256 ^ 8) {n : ℕ}
    (hn : refs.length ≤ n) : refsOfPlain n (refs.flatMap ChunkRef.plain) = .ok refs := by
  induction refs generalizing n with
  | nil => cases n <;> rfl
  | cons x rest ih =>
    obtain ⟨n, rfl⟩ : ∃ k, n = k + 1 := ⟨n - 1, by rw [List.length_cons] at hn; omega⟩
    obtain ⟨hkind, hoffset, hlength⟩ := hfits x List.mem_cons_self
    have hrest := ih (fun y hy => hfits y (List.mem_cons_of_mem _ hy)) (Nat.le_of_succ_le_succ hn)
    rw [List.flatMap_cons, ChunkRef.plain, List.append_assoc, List.append_assoc, List.append_assoc]
    cases hb : Bytes.ofNat 2 x.kindRaw with
    | nil => cases hb
    | cons b bs =>
      rw [List.cons_append, refsOfPlain, ← List.cons_append, ← hb]
      simp only [bind, Except.bind, readExact_append (Bytes.length_ofNat _ _),
        readExact_append x.hash.length_eq, hrest, Bytes.toNat_ofNat_of_lt hkind,
        Bytes.toNat_ofNat_of_lt hoffset, Bytes.toNat_ofNat_of_lt hlength, Digest.ofBytes_bytes]

/-- Libraries with a checksum for the hash, no compression, and the plain format. -/
@[reducible] def SynxLibs.plain : SynxLibs where
  blake3 := Digest.checksum
  encodeAll := .ok
  decodeAll := .ok
  toJson := Manifest.toPlain
  fromJson b := (refsOfPlain b.length b).map Manifest.mk
  decode_encode _ _ h := by
    cases h
    rfl
  from_to m b h := by
    obtain ⟨u, hfits, h⟩ := bind_eq_ok.mp h
    cases h
    have hlen : m.chunks.length ≤ (m.chunks.flatMap ChunkRef.plain).length := by
      rw [length_flatMap_plain]
      omega
    rw [refsOfPlain_plain (ensure_ok.mp hfits) hlen]
    rfl

/-- Two chunks. -/
def twoEntries : List Entry := [⟨.textBlob, .raw, [104, 105]⟩, ⟨.rowBatch, .zstd, [1, 2, 3]⟩]

/-- Two entries come back from either reader. -/
theorem twoEntries_come_back :
    let _ := SynxLibs.plain
    ∃ file r m, writeFile 0 1 twoEntries = .ok file ∧ SynxReader.openFile file = .ok r ∧
      MmapReader.openFile file = .ok m ∧
      ∃ c, r.readChunkAt 1 = .ok c ∧ m.readChunk 1 = .ok c ∧ c.decode = .ok [1, 2, 3] := by
  have hwrite : (@writeFile SynxLibs.plain 0 1 twoEntries).toOption.isSome := by decide +kernel
  have hfits : ∀ c ∈ @encoded SynxLibs.plain 0 1 twoEntries, c.frame.length < 2 ^ 32 := by
    decide +kernel
  intro _
  obtain ⟨file, hfile⟩ := isSome_toOption.mp hwrite
  obtain ⟨r, m, hopen, hmopen, -, -, -, hread⟩ := round_trip hfile hfits
  exact ⟨file, r, m, hfile, hopen, hmopen, hread 1 _ rfl⟩

end SynapseMemory.Synx
