import SynapseMemory.TextFields

/-!
# The chunks of a corpus document

A document is cut at its empty lines. Each piece that is not all white space is a chunk, trimmed,
and is stored with the span of bytes it was found at.

The offset is not searched for: the cursor is the length of the pieces so far with their
separators, and a piece begins with the white space that is trimmed off. So what is before a piece
is a text of as many bytes as the cursor (`chunksFrom_slice`, `chunksFrom_cover`), whatever it is.

The spans say of each chunk where it is (`chunksWithSpans_faithful`). The branch for a text without
a chunk is never taken (`chunksWithSpans_eq`): such a text is all white space.
-/

namespace SynapseMemory.Corpus

open Text

/-- `(String, usize, usize)` -/
abbrev Chunk : Type := Text × ℕ × ℕ

namespace Chunk

/-- The text of a chunk. -/
def text (c : Chunk) : Text := c.1

/-- Where the chunk starts. -/
def start (c : Chunk) : ℕ := c.2.1

/-- Where the chunk stops. -/
def stop (c : Chunk) : ℕ := c.2.2

end Chunk

/-- `"\n\n"` -/
def blankLine : Text := ['\n', '\n']

/-- The loop over the pieces. -/
def chunksFrom : ℕ → List Text → List Chunk
  | _, [] => []
  | cursor, raw :: pieces =>
    match findChar (fun c => !isWhitespace c) raw with
    | none => chunksFrom (cursor + len raw + 2) pieces
    | some localStart =>
      let trimmed := trim raw
      if trimmed.isEmpty then chunksFrom (cursor + len raw + 2) pieces
      else
        let start := cursor + localStart
        (trimmed, start, start + len trimmed) :: chunksFrom (cursor + len raw + 2) pieces

/-- `chunks_with_spans`: the paragraphs, or the whole text if it has none. -/
def chunksWithSpans (text : Text) : List Chunk :=
  let chunks := chunksFrom 0 (splitStr text blankLine)
  if chunks.isEmpty then
    let trimmed := trim text
    if trimmed.isEmpty then chunks else [(trimmed, 0, len trimmed)]
  else chunks

/-- The spans are where the chunks are. -/
structure Faithful (text : Text) (chunks : List Chunk) : Prop where
  slice : ∀ c ∈ chunks, get? text c.start c.stop = some c.text
  bounds : ∀ c ∈ chunks, c.start < c.stop ∧ c.stop ≤ len text
  increasing : chunks.Pairwise fun c d => c.start < d.start ∧ c.stop < d.stop
  disjoint : chunks.Pairwise fun c d => c.stop ≤ d.start
  cover : ∀ a ch b, text = a ++ ch :: b → isWhitespace ch = false →
    ∃! c, c ∈ chunks ∧ c.start ≤ len a ∧ len (a ++ [ch]) ≤ c.stop

/-! ## A piece -/

/-- The chunk of a piece. -/
def chunkOf (cursor : ℕ) (raw : Text) : Chunk :=
  (trim raw, cursor + len (leading raw), cursor + len (leading raw) + len (trim raw))

/-- The white space before the first character is what is trimmed off. -/
theorem findChar_leading {raw : Text} (h : trim raw ≠ []) :
    findChar (fun c => !isWhitespace c) raw = some (len (leading raw)) := by
  have hdrop : raw.dropWhile isWhitespace ≠ [] := by
    intro hnil
    exact h (by rw [trim, hnil]; rfl)
  obtain ⟨c, rest, hcons⟩ := List.exists_cons_of_ne_nil hdrop
  have hc : isWhitespace c = false := by
    have := List.dropWhile_get_zero_not isWhitespace raw (by simp [hcons])
    simpa [hcons] using this
  have hraw : raw = leading raw ++ c :: rest := by
    rw [← hcons]
    exact List.takeWhile_append_dropWhile.symm
  conv_lhs => rw [hraw]
  exact findChar_append (fun x hx => by rw [isWhitespace_of_mem_leading hx]; rfl)
    (by rw [hc]; rfl)

/-- The chunks of a piece, and those of the rest. -/
theorem chunksFrom_cons (cursor : ℕ) (raw : Text) (pieces : List Text) :
    chunksFrom cursor (raw :: pieces) = (if trim raw = [] then [] else [chunkOf cursor raw]) ++
      chunksFrom (cursor + len raw + 2) pieces := by
  rw [chunksFrom]
  split
  next hnone =>
    have hwhite : trim raw = [] :=
      trim_eq_nil.mpr fun c hc => by simpa using findChar_eq_none.mp hnone c hc
    rw [if_pos hwhite, List.nil_append]
  next localStart hfind =>
    by_cases htrim : trim raw = []
    · simp only [htrim, List.isEmpty_nil, if_pos, List.nil_append]
    · rw [findChar_leading htrim] at hfind
      obtain rfl := Option.some.inj hfind
      simp only [List.isEmpty_iff, if_neg htrim]
      rfl

/-- It ends within the piece. -/
theorem chunkOf_stop_le (cursor : ℕ) (raw : Text) :
    (chunkOf cursor raw).stop ≤ cursor + len raw := by
  have hlen := congrArg len (trim_split raw)
  rw [len_append, len_append] at hlen
  simp only [chunkOf, Chunk.stop]
  omega

theorem len_pos {t : Text} (h : t ≠ []) : 0 < len t := by
  obtain ⟨c, t, rfl⟩ := List.exists_cons_of_ne_nil h
  rw [len_cons]
  exact Nat.add_pos_left c.utf8Size_pos _

/-! ## The loop -/

theorem chunksFrom_bounds {cursor : ℕ} {pieces : List Text} {c : Chunk}
    (h : c ∈ chunksFrom cursor pieces) : cursor ≤ c.start ∧ c.start < c.stop := by
  induction pieces generalizing cursor with
  | nil => cases h
  | cons raw pieces ih =>
    rw [chunksFrom_cons, List.mem_append] at h
    rcases h with h | h
    · split_ifs at h with htrim
      · cases h
      · obtain rfl := List.mem_singleton.mp h
        exact ⟨Nat.le_add_right _ _, Nat.lt_add_of_pos_right (len_pos htrim)⟩
    · exact (ih h).imp_left fun hle => by omega

theorem chunksFrom_disjoint (cursor : ℕ) (pieces : List Text) :
    (chunksFrom cursor pieces).Pairwise fun c d => c.stop ≤ d.start := by
  induction pieces generalizing cursor with
  | nil => exact List.Pairwise.nil
  | cons raw pieces ih =>
    rw [chunksFrom_cons]
    split_ifs with htrim
    · exact ih _
    · refine List.pairwise_cons.mpr ⟨fun d hd => ?_, ih _⟩
      have hstop := chunkOf_stop_le cursor raw
      have hstart := (chunksFrom_bounds hd).1
      omega

/-- What is before the next piece. -/
theorem text_next (before raw : Text) {pieces : List Text} (hne : pieces ≠ []) :
    before ++ blankLine.intercalate (raw :: pieces) =
      (before ++ raw ++ blankLine) ++ blankLine.intercalate pieces := by
  rw [List.intercalate_cons_of_ne_nil hne]
  simp only [List.append_assoc]

theorem len_next (before raw : Text) : len (before ++ raw ++ blankLine) =
    len before + len raw + 2 := by
  rw [len_append, len_append]
  rfl

/-- A chunk is the slice of its span, whatever is before the pieces. -/
theorem chunksFrom_slice (before : Text) (pieces : List Text) :
    ∀ c ∈ chunksFrom (len before) pieces,
      get? (before ++ blankLine.intercalate pieces) c.start c.stop = some c.text := by
  induction pieces generalizing before with
  | nil => exact nofun
  | cons raw pieces ih =>
    intro c hc
    rw [chunksFrom_cons, List.mem_append] at hc
    rcases hc with hc | hc
    · split_ifs at hc with htrim
      · cases hc
      · obtain rfl := List.mem_singleton.mp hc
        obtain ⟨after, hafter⟩ : ∃ after, blankLine.intercalate (raw :: pieces) = raw ++ after := by
          cases pieces with
          | nil => exact ⟨[], by simp [List.intercalate_singleton]⟩
          | cons w pieces => exact ⟨_, List.intercalate_cons_cons.trans (List.append_assoc ..)⟩
        refine get?_eq_some.mpr ⟨before ++ leading raw, trailing raw ++ after, ?_, ?_, rfl⟩
        · rw [hafter]
          conv_lhs => rw [trim_split raw]
          simp only [List.append_assoc]
          rfl
        · rw [len_append]
          rfl
    · have hne : pieces ≠ [] := by
        rintro rfl
        cases hc
      rw [text_next before raw hne]
      rw [← len_next] at hc
      exact ih _ c hc

/-- A character of two strings is one of the first or one of the second. -/
theorem append_eq_append_cons {x y a b : Text} {ch : Char} (h : x ++ y = a ++ ch :: b) :
    (∃ b', x = a ++ ch :: b') ∨ ∃ a', a = x ++ a' ∧ y = a' ++ ch :: b := by
  rcases List.append_eq_append_iff.mp h with ⟨a', ha, hy⟩ | ⟨c', hx, hy⟩
  · exact .inr ⟨a', ha, hy⟩
  · cases c' with
    | nil => exact .inr ⟨[], by simpa using hx.symm, by simpa using hy.symm⟩
    | cons c c' =>
      obtain ⟨rfl, -⟩ := List.cons.inj hy
      exact .inl ⟨c', hx⟩

/-- A character of a piece that is not white space is in its chunk. -/
theorem chunkOf_cover (cursor : ℕ) {raw a b : Text} {ch : Char} (h : raw = a ++ ch :: b)
    (hch : isWhitespace ch = false) : trim raw ≠ [] ∧
      (chunkOf cursor raw).start ≤ cursor + len a ∧
      cursor + len (a ++ [ch]) ≤ (chunkOf cursor raw).stop := by
  have hsplit := (trim_split raw).symm.trans h
  rcases append_eq_append_cons hsplit with ⟨b', hlead⟩ | ⟨a', ha, hrest⟩
  · have hmem : ch ∈ leading raw := by simp [hlead]
    exact absurd (isWhitespace_of_mem_leading hmem) (by simp [hch])
  rcases append_eq_append_cons hrest with ⟨b', htrim⟩ | ⟨a'', -, htrail⟩
  · refine ⟨by simp [htrim], ?_, ?_⟩
    · rw [ha, len_append]
      simp only [chunkOf, Chunk.start]
      omega
    · have hlen := congrArg len htrim
      rw [len_append, len_cons] at hlen
      rw [ha, len_append, len_append, len_cons]
      simp only [chunkOf, Chunk.stop, len, List.map_nil, List.sum_nil] at hlen ⊢
      omega
  · have hmem : ch ∈ trailing raw := by simp [htrail]
    exact absurd (isWhitespace_of_mem_trailing hmem) (by simp [hch])

theorem isWhitespace_of_mem_blankLine {c : Char} (h : c ∈ blankLine) : isWhitespace c = true := by
  simp only [blankLine, List.mem_cons, List.not_mem_nil, or_false, or_self] at h
  rw [h]
  decide

/-- Every character that is not white space is in a chunk. -/
theorem chunksFrom_cover (cursor : ℕ) {pieces : List Text} {a b : Text} {ch : Char}
    (h : blankLine.intercalate pieces = a ++ ch :: b) (hch : isWhitespace ch = false) :
    ∃ c ∈ chunksFrom cursor pieces, c.start ≤ cursor + len a ∧
      cursor + len (a ++ [ch]) ≤ c.stop := by
  induction pieces generalizing cursor a with
  | nil => simp at h
  | cons raw pieces ih =>
    have hmine {b' : Text} (hraw : raw = a ++ ch :: b') :
        ∃ c ∈ chunksFrom cursor (raw :: pieces), c.start ≤ cursor + len a ∧
          cursor + len (a ++ [ch]) ≤ c.stop := by
      obtain ⟨htrim, hspan⟩ := chunkOf_cover cursor hraw hch
      exact ⟨chunkOf cursor raw, by simp [chunksFrom_cons, htrim], hspan⟩
    rcases eq_or_ne pieces [] with rfl | hne
    · rw [List.intercalate_singleton] at h
      exact hmine h
    rw [List.intercalate_cons_of_ne_nil hne, List.append_assoc] at h
    rcases append_eq_append_cons h with ⟨b', hraw⟩ | ⟨a', rfl, hrest⟩
    · exact hmine hraw
    rcases append_eq_append_cons hrest with ⟨b', hsep⟩ | ⟨a'', rfl, htail⟩
    · have hmem : ch ∈ blankLine := by simp [hsep]
      exact absurd (isWhitespace_of_mem_blankLine hmem) (by simp [hch])
    · obtain ⟨c, hc, hstart, hstop⟩ := ih (cursor + len raw + 2) htail
      refine ⟨c, by simp [chunksFrom_cons, hc], ?_, ?_⟩
      · have hblank : len blankLine = 2 := rfl
        rw [len_append, len_append]
        omega
      · have hblank : len blankLine = 2 := rfl
        rw [List.append_assoc, List.append_assoc, len_append, len_append]
        omega

/-! ## The document -/

theorem intercalate_blankLine (text : Text) :
    blankLine.intercalate (splitStr text blankLine) = text :=
  intercalate_splitStr (List.cons_ne_nil _ _) text

/-- A text without a chunk is all white space. -/
theorem chunksWithSpans_eq (text : Text) :
    chunksWithSpans text = chunksFrom 0 (splitStr text blankLine) := by
  rw [chunksWithSpans]
  split
  next hempty =>
    rw [List.isEmpty_iff] at hempty
    have hwhite : trim text = [] := by
      refine trim_eq_nil.mpr fun c hc => ?_
      by_contra hblack
      obtain ⟨a, b, hsplit⟩ := List.append_of_mem hc
      rw [← intercalate_blankLine text] at hsplit
      obtain ⟨c, hc, -⟩ := chunksFrom_cover 0 hsplit (Bool.eq_false_iff.mpr hblack)
      rw [hempty] at hc
      cases hc
    simp only [hwhite, List.isEmpty_nil, if_pos]
  next => rfl

/-- Two different chunks are one after the other. -/
theorem apart {chunks : List Chunk} (h : chunks.Pairwise fun c d => c.stop ≤ d.start) {c d : Chunk}
    (hc : c ∈ chunks) (hd : d ∈ chunks) (hne : c ≠ d) : c.stop ≤ d.start ∨ d.stop ≤ c.start :=
  haveI : Std.Symm fun c d : Chunk => c.stop ≤ d.start ∨ d.stop ≤ c.start :=
    ⟨fun _ _ hor => hor.symm⟩
  (h.imp (S := fun c d => c.stop ≤ d.start ∨ d.stop ≤ c.start) Or.inl).forall hc hd hne

/-- **Corpus chunk spans are faithful.** -/
theorem chunksWithSpans_faithful (text : Text) : Faithful text (chunksWithSpans text) := by
  rw [chunksWithSpans_eq]
  have hslice := chunksFrom_slice [] (splitStr text blankLine)
  rw [List.nil_append, intercalate_blankLine] at hslice
  have hbounds {c : Chunk} (hc : c ∈ chunksFrom 0 (splitStr text blankLine)) :
      c.start < c.stop ∧ c.stop ≤ len text := by
    obtain ⟨a, b, hsplit, hstart, hstop⟩ := get?_eq_some.mp (hslice c hc)
    refine ⟨(chunksFrom_bounds hc).2, ?_⟩
    rw [hsplit, len_append, len_append]
    omega
  have hdisjoint := chunksFrom_disjoint 0 (splitStr text blankLine)
  refine ⟨hslice, fun c => hbounds, ?_, hdisjoint, fun a ch b h hch => ?_⟩
  · refine hdisjoint.imp_of_mem fun {c d} hc hd hle => ?_
    have hc := (hbounds hc).1
    have hd := (hbounds hd).1
    omega
  · obtain ⟨c, hc, hspan⟩ := chunksFrom_cover 0 ((intercalate_blankLine text).trans h) hch
    rw [zero_add, zero_add] at hspan
    refine ⟨c, ⟨hc, hspan⟩, ?_⟩
    rintro d ⟨hd, hspan'⟩
    have hlen : len a < len (a ++ [ch]) := by
      rw [len_append]
      exact Nat.lt_add_of_pos_right (len_pos (List.cons_ne_nil _ _))
    by_contra hne
    have := apart hdisjoint hd hc hne
    omega

-- the second piece begins with the rest of three newlines
example : chunksWithSpans ['a', '\n', '\n', '\n', 'a'] = [(['a'], 0, 1), (['a'], 4, 5)] := by
  decide

end SynapseMemory.Corpus
