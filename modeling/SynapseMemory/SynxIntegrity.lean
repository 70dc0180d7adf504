import SynapseMemory.SynxRoundTrip

/-!
# Containers with replaced chunks

The footer holds the hash of the manifest, and the manifest the hash of every chunk. A reader checks
the manifest against the footer, so a file with the footer of another one has its manifest as well.
It checks a chunk against the hash in the frame of the chunk, which is part of what is read, and not
against the hash in the manifest. So the data are those that were written exactly if no frame with
another hash stands where the manifest says.
-/

namespace SynapseMemory.Synx

theorem readChunkAt_ok {r : SynxReader} {i : ℕ} {c : Chunk} :
    r.readChunkAt i = .ok c ↔
      ∃ x, r.manifest.chunks[i]? = some x ∧ Chunk.readFrom (r.inner.drop x.offset) = .ok c := by
  rw [SynxReader.readChunkAt]
  cases r.manifest.chunks[i]? with
  | none => simp
  | some x => simp

/-- When the mapped reader gets one. -/
theorem readChunk_ok {m : MmapReader} {i : ℕ} {c : Chunk} (h : m.readChunk i = .ok c) :
    ∃ x rest, m.manifest.chunks[i]? = some x ∧
      ∃ slice, m.map.drop x.offset = slice ++ rest ∧ Chunk.readFrom slice = .ok c := by
  obtain ⟨slice, hslice, hread⟩ := bind_eq_ok.mp h
  rw [MmapReader.rawSlice] at hslice
  split at hslice
  · cases hslice
  next x hx =>
    obtain ⟨u, -, hslice⟩ := bind_eq_ok.mp hslice
    obtain rfl := Except.ok.inj hslice
    refine ⟨x, (m.map.drop x.offset).drop x.length, hx, _, ?_, hread⟩
    rw [Bytes.slice, Nat.add_sub_cancel_left, List.take_append_drop]

section Frames

variable [SynxLibs]

/-- A well-formed frame with this hash and these data stands here. -/
def Framed (b : Bytes) (hash : Digest) (data : Bytes) : Prop :=
  ∃ c : Chunk, ∃ reserved rest, reserved.length = 8 ∧ 56 + c.payload.length < 2 ^ 32 ∧
    b = c.frameWith reserved ++ rest ∧ c.hash = hash ∧ c.expand = .ok data ∧
    ContentHash.blake3 data = hash ∧ data.length % 2 ^ 64 = c.uncompressedLen

/-- Reading and decoding succeeds exactly on such a frame. -/
theorem framed_iff {b : Bytes} {hash : Digest} {data : Bytes} :
    Framed b hash data ↔ ∃ c, Chunk.readFrom b = .ok c ∧ c.hash = hash ∧ c.decode = .ok data := by
  refine ⟨?_, ?_⟩
  · rintro ⟨c, reserved, rest, hreserved, hfits, rfl, rfl, hexpand, hhash, hlen⟩
    have hbound : c.uncompressedLen < 2 ^ 64 := hlen ▸ Nat.mod_lt _ (by decide)
    exact ⟨c, Chunk.readFrom_frameWith hreserved hfits hbound rest, rfl,
      Chunk.decode_ok.mpr ⟨hexpand, hhash, hlen⟩⟩
  · rintro ⟨c, hread, rfl, hdecode⟩
    obtain ⟨reserved, rest, hreserved, hfits, -, hb⟩ := Chunk.readFrom_ok hread
    obtain ⟨hexpand, hhash, hlen⟩ := Chunk.decode_ok.mp hdecode
    exact ⟨c, reserved, rest, hreserved, hfits, hb, rfl, hexpand, hhash, hlen⟩

theorem Framed.hash_eq {b : Bytes} {hash : Digest} {data : Bytes} (h : Framed b hash data) :
    ContentHash.blake3 data = hash := by
  obtain ⟨c, reserved, rest, -, -, -, -, -, hhash, -⟩ := h
  exact hhash

/-- More bytes after a frame. -/
theorem Framed.append {b : Bytes} {hash : Digest} {data : Bytes} (h : Framed b hash data)
    (more : Bytes) : Framed (b ++ more) hash data := by
  obtain ⟨c, reserved, rest, hreserved, hfits, rfl, hframe⟩ := h
  exact ⟨c, reserved, rest ++ more, hreserved, hfits, List.append_assoc _ _ _, hframe⟩

/-! ## The manifest -/

theorem loadManifest_ok {b : Bytes} {manifestHash : Digest} {complaint : String} {m : Manifest}
    (h : loadManifest b manifestHash complaint = .ok m) :
    ∃ data, Framed b manifestHash data ∧ SynxLibs.fromJson data = .ok m := by
  obtain ⟨c, hread, h⟩ := bind_eq_ok.mp h
  obtain ⟨u, hhash, h⟩ := bind_eq_ok.mp h
  obtain ⟨data, hdecode, h⟩ := bind_eq_ok.mp h
  exact ⟨data, framed_iff.mpr ⟨c, hread, ensure_ok.mp hhash, hdecode⟩, h⟩

/-- What a file that was opened has. -/
theorem openFile_ok {file : Bytes} {r : SynxReader} (h : SynxReader.openFile file = .ok r) :
    r.inner = file ∧ SynxHeader.readFrom file = .ok r.header ∧ footerSize ≤ file.length ∧
      SynxFooter.readFrom (file.drop (file.length - footerSize)) = .ok r.footer ∧
      loadManifest (file.drop r.header.manifestOffset) r.footer.manifestHash
        "manifest hash does not match footer" = .ok r.manifest := by
  obtain ⟨header, hheader, h⟩ := bind_eq_ok.mp h
  obtain ⟨u, hlen, h⟩ := bind_eq_ok.mp h
  obtain ⟨footer, hfooter, h⟩ := bind_eq_ok.mp h
  obtain ⟨manifest, hmanifest, h⟩ := bind_eq_ok.mp h
  obtain rfl := Except.ok.inj h
  exact ⟨rfl, hheader, ensure_ok.mp hlen, hfooter, hmanifest⟩

/-- What `MmapReader` opens, `SynxReader` opens, with the same manifest. -/
theorem openMmap_ok {file : Bytes} {m : MmapReader} (h : MmapReader.openFile file = .ok m) :
    m.map = file ∧ ∃ r, SynxReader.openFile file = .ok r ∧ r.manifest = m.manifest := by
  obtain ⟨u, hlen, h⟩ := bind_eq_ok.mp h
  obtain ⟨u, -, h⟩ := bind_eq_ok.mp h
  obtain ⟨header, hheader, h⟩ := bind_eq_ok.mp h
  obtain ⟨footer, hfooter, h⟩ := bind_eq_ok.mp h
  obtain ⟨u, -, h⟩ := bind_eq_ok.mp h
  obtain ⟨manifest, hmanifest, h⟩ := bind_eq_ok.mp h
  obtain rfl := Except.ok.inj h
  have hlen : headerSize + footerSize ≤ file.length := ensure_ok.mp hlen
  have hheader' : SynxHeader.readFrom file = .ok header := by
    have hslice : (Bytes.slice file 0 headerSize).length = headerSize :=
      Bytes.length_slice (by omega)
    rw [← hheader, ← SynxHeader.readFrom_append hslice (file.drop headerSize)]
    exact congrArg _ (List.take_append_drop headerSize file).symm
  have hmanifest' : loadManifest (file.drop header.manifestOffset) footer.manifestHash
      "manifest hash does not match footer" = .ok manifest := by
    obtain ⟨c, hread, h⟩ := bind_eq_ok.mp hmanifest
    obtain ⟨u, hhash, h⟩ := bind_eq_ok.mp h
    exact bind_eq_ok.mpr ⟨c, hread, bind_eq_ok.mpr ⟨(), ensure_ok.mpr (ensure_ok.mp hhash), h⟩⟩
  refine ⟨rfl, ⟨file, header, footer, manifest⟩, ?_, rfl⟩
  refine bind_eq_ok.mpr ⟨header, hheader', bind_eq_ok.mpr ⟨(), ensure_ok.mpr (by omega), ?_⟩⟩
  exact bind_eq_ok.mpr ⟨footer, hfooter, bind_eq_ok.mpr ⟨manifest, hmanifest', rfl⟩⟩

/-- A file with the footer of a written one has its manifest. -/
theorem manifest_eq {now : ℕ} {flags : UInt16} {entries : List Entry} {file file' : Bytes}
    (hwrite : writeFile now flags entries = .ok file)
    (hfooter : file'.drop (file'.length - footerSize) = file.drop (file.length - footerSize))
    {r : SynxReader} (hopen : SynxReader.openFile file' = .ok r)
    (hfree : Set.InjOn ContentHash.blake3
      ({x | ∃ c ∈ encoded now flags entries, c.decode = .ok x} ∪
        {x | ∃ hash, Framed (file'.drop r.header.manifestOffset) hash x})) :
    writtenManifest now flags entries = .ok r.manifest := by
  obtain ⟨l, rfl, -, hwritten, hencoded⟩ := writeFile_ok hwrite
  obtain ⟨-, -, -, hread, hload⟩ := openFile_ok hopen
  obtain ⟨-, hhash, -, hdecode⟩ := Chunk.new_ok l.new_eq
  obtain ⟨f, hf, hfhash⟩ := l.footer.readFrom_bytes
  rw [hfooter, l.drop_footer, hf] at hread
  obtain rfl := Except.ok.inj hread
  obtain ⟨data, hframed, hjson⟩ := loadManifest_ok hload
  have hsame : data = l.manifestBytes := by
    refine hfree (.inr ⟨_, hframed⟩) (.inl ⟨_, hencoded, hdecode⟩) ?_
    rw [hframed.hash_eq, hfhash, ← hhash]
    rfl
  rw [hsame, SynxLibs.from_to _ _ l.toJson_eq] at hjson
  rw [hwritten, Except.ok.inj hjson]

/-! ## The chunks -/

/-- Each entry of the manifest belongs to a chunk that was written. -/
theorem Built.getElem?_refs {entries : List Entry} {chunks : List Chunk} (h : Built entries chunks)
    {start i : ℕ} {x : ChunkRef} (hx : (refsFrom start chunks)[i]? = some x) :
    ∃ e c, entries[i]? = some e ∧ Chunk.new e.kind e.codec e.data = .ok c ∧
      x.hash = ContentHash.blake3 e.data := by
  induction h generalizing start i with
  | nil => cases hx
  | @cons e c _ _ hnew _ ih =>
    cases i with
    | zero =>
      obtain rfl := Option.some.inj hx
      exact ⟨e, c, rfl, hnew, (Chunk.new_ok hnew).2.1⟩
    | succ i => exact ih hx

/-- The hash that the manifest has for a chunk is that of its data. -/
theorem writtenManifest_hash {now : ℕ} {flags : UInt16} {entries : List Entry}
    {manifest : Manifest} (h : writtenManifest now flags entries = .ok manifest) {i : ℕ}
    {x : ChunkRef} (hx : manifest.chunks[i]? = some x) :
    ∃ e c, entries[i]? = some e ∧ Chunk.new e.kind e.codec e.data = .ok c ∧
      x.hash = ContentHash.blake3 e.data := by
  obtain ⟨w, hcreate, h⟩ := bind_eq_ok.mp h
  obtain ⟨w', happend, h⟩ := bind_eq_ok.mp h
  obtain rfl := Except.ok.inj h
  obtain ⟨-, -, -, hnone⟩ := create_ok hcreate
  obtain ⟨chunks, hbuilt, -, -, -, hmanifest⟩ := appendAll_ok happend
  rw [hnone, List.nil_append] at hmanifest
  exact hbuilt.getElem?_refs (hmanifest ▸ hx)

/-- **Replaced chunks.** -/
theorem data_as_written_iff {now : ℕ} {flags : UInt16} {entries : List Entry} {file file' : Bytes}
    (hwrite : writeFile now flags entries = .ok file)
    (hfooter : file'.drop (file'.length - footerSize) = file.drop (file.length - footerSize))
    {manifest : Manifest} (hmanifest : writtenManifest now flags entries = .ok manifest)
    {r : SynxReader} (hopen : SynxReader.openFile file' = .ok r)
    (hfree : Set.InjOn ContentHash.blake3
      ({x | ∃ c ∈ encoded now flags entries, c.decode = .ok x} ∪
        {x | ∃ offset ∈ r.header.manifestOffset :: manifest.chunks.map ChunkRef.offset,
          ∃ hash, Framed (file'.drop offset) hash x})) :
    (∀ i c data, (r.readChunkAt i = .ok c ∨
        ∃ m, MmapReader.openFile file' = .ok m ∧ m.readChunk i = .ok c) →
        c.decode = .ok data → ∃ e, entries[i]? = some e ∧ e.data = data) ↔
      ∀ x ∈ manifest.chunks, ∀ hash data, Framed (file'.drop x.offset) hash data →
        hash = x.hash := by
  obtain ⟨hinner, -⟩ := openFile_ok hopen
  have hsame : r.manifest = manifest := by
    have heq := manifest_eq hwrite hfooter hopen (hfree.mono (Set.union_subset_union_right _ ?_))
    · exact Except.ok.inj (heq.symm.trans hmanifest)
    · rintro x ⟨hash, hx⟩
      exact ⟨_, List.mem_cons_self, hash, hx⟩
  refine ⟨?_, ?_⟩
  · intro hright x hx hash data hframed
    obtain ⟨i, hi⟩ := List.mem_iff_getElem?.mp hx
    obtain ⟨c, hread, rfl, hdecode⟩ := framed_iff.mp hframed
    have hchunk : r.readChunkAt i = .ok c :=
      readChunkAt_ok.mpr ⟨x, hsame ▸ hi, hinner ▸ hread⟩
    obtain ⟨e, he, rfl⟩ := hright i c data (.inl hchunk) hdecode
    obtain ⟨e', c', he', -, hhash⟩ := writtenManifest_hash hmanifest hi
    obtain rfl := Option.some.inj (he.symm.trans he')
    rw [hhash, ← hframed.hash_eq]
  · intro hframes i c data hread hdecode
    have hat : ∃ x, manifest.chunks[i]? = some x ∧ Framed (file'.drop x.offset) c.hash data := by
      rcases hread with hread | ⟨m, hm, hread⟩
      · obtain ⟨x, hx, hread⟩ := readChunkAt_ok.mp hread
        exact ⟨x, hsame ▸ hx, framed_iff.mpr ⟨c, hinner ▸ hread, rfl, hdecode⟩⟩
      · obtain ⟨hmap, r', hopen', hmanifest'⟩ := openMmap_ok hm
        obtain rfl := Except.ok.inj (hopen.symm.trans hopen')
        obtain ⟨x, rest, hx, slice, hslice, hread⟩ := readChunk_ok hread
        refine ⟨x, hsame ▸ hmanifest' ▸ hx, ?_⟩
        rw [← hmap, hslice]
        exact (framed_iff.mpr ⟨c, hread, rfl, hdecode⟩).append rest
    obtain ⟨x, hx, hframed⟩ := hat
    have hmem : x ∈ manifest.chunks := List.mem_of_getElem? hx
    obtain ⟨e, c', he, hnew, hhash⟩ := writtenManifest_hash hmanifest hx
    obtain ⟨-, -, -, hdecode'⟩ := Chunk.new_ok hnew
    refine ⟨e, he, hfree ?_ ?_ ?_⟩
    · exact .inl ⟨c', mem_encoded (List.mem_of_getElem? he) hnew, hdecode'⟩
    · exact .inr ⟨x.offset, List.mem_cons_of_mem _ (List.mem_map_of_mem hmem), c.hash, hframed⟩
    · rw [← hhash, hframed.hash_eq, hframes x hmem _ _ hframed]

end Frames

/-! ## A replaced chunk -/

/-- The hash and the data of the frame that stands here. -/
def frameAt [SynxLibs] (b : Bytes) : Option (Digest × Bytes) :=
  match Chunk.readFrom b with
  | .error _ => none
  | .ok c => c.decode.toOption.map (c.hash, ·)

theorem Framed.frameAt_eq [SynxLibs] {b : Bytes} {hash : Digest} {data : Bytes}
    (h : Framed b hash data) : frameAt b = some (hash, data) := by
  obtain ⟨c, hread, rfl, hdecode⟩ := framed_iff.mp h
  simp [frameAt, hread, hdecode, Except.toOption]

/-- One chunk of one byte. -/
def oneEntry : List Entry := [⟨.textBlob, .raw, [1]⟩]

/-- The file with this entry. -/
def original : Bytes := (@writeFile SynxLibs.plain 0 1 oneEntry).toOption.getD []

/-- The text of its manifest. -/
def originalText : Bytes :=
  (@writtenManifest SynxLibs.plain 0 1 oneEntry >>= Manifest.toPlain).toOption.getD []

/-- The one byte of its data is changed, and its hash is not. -/
def tampered : Bytes := original.take 120 ++ 2 :: original.drop 121

/-- Nothing but what was written is read from it. -/
theorem tampered_as_written :
    let _ := SynxLibs.plain
    tampered ≠ original ∧ ∃ r, SynxReader.openFile tampered = .ok r ∧
      ∀ i c data, (r.readChunkAt i = .ok c ∨
        ∃ m, MmapReader.openFile tampered = .ok m ∧ m.readChunk i = .ok c) →
        c.decode = .ok data → ∃ e, oneEntry[i]? = some e ∧ e.data = data := by
  intro _
  have hwrite : writeFile 0 1 oneEntry = .ok original := by decide +kernel
  have hne : tampered ≠ original := by decide +kernel
  have hfooter : tampered.drop (tampered.length - footerSize) =
      original.drop (original.length - footerSize) := by decide +kernel
  have hopen : (SynxReader.openFile tampered).toOption.isSome := by decide +kernel
  have hoffset : ∀ r ∈ (SynxReader.openFile tampered).toOption,
      r.header.manifestOffset = 121 := by decide +kernel
  have hmanifest : writtenManifest 0 1 oneEntry =
      .ok ⟨[⟨2, 64, 57, Digest.checksum [1]⟩]⟩ := by decide +kernel
  have hinputs : ([[1], originalText].map Digest.checksum).Nodup := by decide +kernel
  have hencoded : ∀ c ∈ encoded 0 1 oneEntry, ∀ x ∈ c.decode.toOption, x ∈ [[1], originalText] := by
    decide +kernel
  have hheld : ∀ offset ∈ [121, 64], ∀ p ∈ frameAt (tampered.drop offset),
      p.2 ∈ [[1], originalText] := by decide +kernel
  have hframes : ∀ p ∈ frameAt (tampered.drop 64), p.1 = Digest.checksum [1] := by decide +kernel
  obtain ⟨r, hr⟩ := isSome_toOption.mp hopen
  have hoffset := hoffset r (congrArg Except.toOption hr)
  have hfree : Set.InjOn ContentHash.blake3
      ({x | ∃ c ∈ encoded 0 1 oneEntry, c.decode = .ok x} ∪
        {x | ∃ offset ∈ [r.header.manifestOffset, 64],
          ∃ hash, Framed (tampered.drop offset) hash x}) := by
    have hlisted : ∀ x ∈ ({x | ∃ c ∈ encoded 0 1 oneEntry, c.decode = .ok x} ∪
        {x | ∃ offset ∈ [r.header.manifestOffset, 64],
          ∃ hash, Framed (tampered.drop offset) hash x} : Set Bytes), x ∈ [[1], originalText] := by
      rintro x (⟨c, hc, hdecode⟩ | ⟨offset, hoff, hash, hframed⟩)
      · exact hencoded c hc x (congrArg Except.toOption hdecode)
      · rw [hoffset] at hoff
        exact hheld offset hoff _ hframed.frameAt_eq
    exact fun x hx y hy heq =>
      List.inj_on_of_nodup_map hinputs (hlisted x hx) (hlisted y hy) heq
  have hright := data_as_written_iff hwrite hfooter hmanifest hr hfree
  refine ⟨hne, r, hr, hright.mpr ?_⟩
  intro x hx hash data hframed
  obtain rfl := List.mem_singleton.mp hx
  exact hframes _ hframed.frameAt_eq

/-- The frame of its chunk, of 57 bytes, is replaced by the frame of other data. -/
def replaced : Bytes :=
  original.take 64 ++ (Chunk.frame ⟨.textBlob, .raw, 0, Digest.checksum [2], 1, [2]⟩ ++
    original.drop 121)

theorem replaced_accepted :
    let _ := SynxLibs.plain
    writeFile 0 1 oneEntry = .ok original ∧ replaced.length = original.length ∧
      replaced.take 64 = original.take 64 ∧ replaced.drop 121 = original.drop 121 ∧
      ([[1], [2], originalText].map ContentHash.blake3).Nodup ∧
      (SynxReader.openFile replaced >>= fun r => r.readChunkAt 0 >>= Chunk.decode) = .ok [2] ∧
      (MmapReader.openFile replaced >>= fun m => m.readChunk 0 >>= Chunk.decode) = .ok [2] := by
  intro _
  decide +kernel

end SynapseMemory.Synx
