import SynapseMemory.Proto
import SynapseMemory.TextFields

/-!
# Chunks of a session

A session is an array of messages, messages line by line, or a text. A message is one chunk, or if
it has more than 1000 bytes windows of 400 characters, each of which begins with the last 50 of the
one before. A text is taken by its paragraphs, which are gathered in a buffer up to two limits.

No text is lost. The windows are a cover of the message (`windowsFrom_covers`): a window that ends
before the message does is a whole one, so the next one has more than the 50 characters that the two
share. A chunk of a text is the paragraphs that were gathered with an empty line between them, and
as none of them has one or ends in a line feed it is split into them again
(`splitStr_intercalate`).
-/

namespace SynapseMemory.SessionChunks

open Text

/-! ## The code -/

/-- A text and its `meta`. -/
structure Chunk where
  text : Text
  meta_ : Json

/-- `serde_json::from_str` -/
class JsonReader where
  values : Text → Option (List Json)
  value : Text → Option Json

/-- `WINDOW` -/
def window : ℕ := 400

/-- `OVERLAP` -/
def overlap : ℕ := 50

/-- `THRESHOLD` -/
def threshold : ℕ := 1000

/-- How far the window goes on. -/
def step : ℕ := window - overlap

/-- The loop over the windows. -/
def windowsFrom (chars : Text) (emit : ℕ → Text → Chunk) (winIdx start : ℕ) : List Chunk :=
  if start < chars.length then
    let stop := min (start + window) chars.length
    let slice := (chars.take stop).drop start
    if stop = chars.length then [emit winIdx slice]
    else emit winIdx slice :: windowsFrom chars emit (winIdx + 1) (start + step)
  else []
termination_by chars.length - start
decreasing_by
  have hstep : 0 < step := by decide
  omega

/-- The metadata of a message's chunk. -/
def messageMeta (role ts : String) (msgIdx : ℕ) (sourceId : String) (win : ℕ) : Json :=
  .obj [("role", .str role), ("ts", .str ts), ("msg_idx", .int msgIdx), ("win", .int win),
    ("source", .str sourceId)]

/-- What is pushed for a message. -/
def splitMessageContent (content pre : Text) (role ts : String) (msgIdx : ℕ) (sourceId : String) :
    List Chunk :=
  let content := trim content
  if len content ≤ threshold then [⟨pre ++ content, messageMeta role ts msgIdx sourceId 0⟩]
  else
    windowsFrom content
      (fun winIdx slice => ⟨pre ++ slice, messageMeta role ts msgIdx sourceId winIdx⟩) 0 0

/-- What stands before the text of a message. -/
def messagePrefix (role ts : String) (msgIdx : ℕ) : Text :=
  if ts = "" then s!"[{role}|msg{msgIdx}] ".toList else s!"[{role}|{ts}|msg{msgIdx}] ".toList

/-- The chunks of a message with its number; none if it has no role or no content. -/
def messageChunks (sourceId : String) (ts : Json → String) (m : Json × ℕ) : List Chunk :=
  match (m.1.get "role").bind Json.asStr, (m.1.get "content").bind Json.asStr with
  | some role, some content =>
    if (trim content.toList).isEmpty then []
    else
      splitMessageContent content.toList (messagePrefix role (ts m.1) m.2) role (ts m.1) m.2
        sourceId
  | _, _ => []

/-- The time of a message of an array. -/
def messageTs (m : Json) : String :=
  (((m.get "ts").or (m.get "timestamp")).bind Json.asStr).getD ""

/-- `"\n\n"` -/
def emptyLine : Text := ['\n', '\n']

/-- `TARGET` -/
def target : ℕ := 2048

/-- `MAX` -/
def maxBytes : ℕ := 4096

/-- A chunk of whole paragraphs. -/
def paragraphChunk (sourceId : String) (buf : Text) : Chunk :=
  ⟨trim buf, .obj [("source", .str sourceId), ("chunk_type", .str "paragraph")]⟩

/-- The loop over what is between the empty lines. -/
def paragraphsFrom (sourceId : String) : Text → List Text → List Chunk
  | buf, [] => if (trim buf).isEmpty then [] else [paragraphChunk sourceId buf]
  | buf, piece :: rest =>
    let para := trim piece
    if para.isEmpty then paragraphsFrom sourceId buf rest
    else
      let full := maxBytes < len buf + len para + 2 && !buf.isEmpty
      let flushed := if full then [paragraphChunk sourceId buf] else []
      let kept := if full then [] else buf
      let gathered := if kept.isEmpty then para else kept ++ emptyLine ++ para
      if target ≤ len gathered then
        flushed ++ paragraphChunk sourceId gathered :: paragraphsFrom sourceId [] rest
      else flushed ++ paragraphsFrom sourceId gathered rest

/-- The chunks of a text that is no conversation. -/
def paragraphChunks (raw : Text) (sourceId : String) : List Chunk :=
  paragraphsFrom sourceId [] (splitStr raw emptyLine)

section Session

variable [R : JsonReader]

/-- The messages of an array. -/
def arrayChunks (raw : Text) (sourceId : String) : List Chunk :=
  ((R.values raw).getD []).zipIdx.flatMap (messageChunks sourceId messageTs)

/-- The messages line by line. -/
def lineChunks (raw : Text) (sourceId : String) : List Chunk :=
  (lines raw).zipIdx.flatMap fun line =>
    if (line.1.dropWhile isWhitespace).head? = some (Char.ofNat 123) then
      match R.value line.1 with
      | some m => messageChunks sourceId (fun _ => "") (m, line.2)
      | none => []
    else []

/-- `chunk_session`: the first of the three ways that gives a chunk. -/
def chunkSession (raw : Text) (sourceId : String) : List Chunk :=
  if !(arrayChunks raw sourceId).isEmpty then arrayChunks raw sourceId
  else if !(lineChunks raw sourceId).isEmpty then lineChunks raw sourceId
  else paragraphChunks raw sourceId

end Session

/-! ## What it is to do -/

/-- The text that windows are of: of each but the first what is new in it. -/
def joined : List Text → Text
  | [] => []
  | w :: ws => w ++ ws.flatMap (·.drop overlap)

/-- The windows are pieces of a text, each begins with the end of the one before, and together they
are the text. -/
structure Covers (text : Text) (windows : List Text) : Prop where
  piece : ∀ w ∈ windows, w <:+: text
  shared : windows.IsChain fun a b => a.drop step <+: b
  joined_eq : joined windows = text

/-- The paragraphs of a text. -/
def paragraphs (raw : Text) : List Text :=
  ((splitStr raw emptyLine).map trim).filter fun para => !para.isEmpty

/-! ## Windows -/

theorem joined_cons_cons (w w' : Text) (ws : List Text) :
    joined (w :: w' :: ws) = w ++ (w'.drop overlap ++ ws.flatMap (·.drop overlap)) := rfl

/-- A window that is followed by another one is a whole one. -/
theorem Covers.cons {text w : Text} {ws : List Text} (h : Covers (text.drop step) (w :: ws))
    (hw : w = (text.drop step).take window) (hlong : window < text.length) :
    Covers text (text.take window :: w :: ws) where
  piece := by
    intro v hv
    rcases List.mem_cons.mp hv with rfl | hv
    · exact (List.take_prefix _ _).isInfix
    · exact (h.piece v hv).trans (List.drop_suffix _ _).isInfix
  shared := by
    refine List.isChain_cons_cons.mpr ⟨?_, h.shared⟩
    rw [hw, List.drop_take]
    exact List.take_prefix_take_left (by decide)
  joined_eq := by
    have hoverlap : overlap ≤ w.length := by
      rw [hw, List.length_take, List.length_drop]
      simp only [overlap, step, window] at hlong ⊢
      omega
    have hnew : w.drop overlap ++ ws.flatMap (·.drop overlap) = text.drop window := by
      have hjoined : w ++ ws.flatMap (·.drop overlap) = text.drop step := h.joined_eq
      rw [← List.drop_append_of_le_length hoverlap, hjoined, List.drop_drop]
      rfl
    rw [joined_cons_cons, hnew, List.take_append_drop]

/-- **The windows from an offset cover what is ahead of it.** -/
theorem windowsFrom_covers {chars pre : Text} {emit : ℕ → Text → Chunk}
    (hemit : ∀ winIdx slice, (emit winIdx slice).text = pre ++ slice) {winIdx start : ℕ}
    (hstart : start < chars.length) :
    ∃ windows, (windowsFrom chars emit winIdx start).map Chunk.text = windows.map (pre ++ ·) ∧
      Covers (chars.drop start) windows ∧ (∀ w ∈ windows, w.length ≤ window) ∧
      windows.head? = some ((chars.drop start).take window) := by
  induction winIdx, start using windowsFrom.induct chars with
  | case1 winIdx start _ stop hstop =>
    have hslice : (chars.take stop).drop start = chars.drop start := by
      rw [hstop, List.take_length]
    have hshort : (chars.drop start).length ≤ window := by
      rw [List.length_drop]
      omega
    refine ⟨[chars.drop start], ?_, ⟨?_, List.isChain_singleton _, List.append_nil _⟩, ?_, ?_⟩
    · rw [windowsFrom, if_pos hstart]
      dsimp only
      rw [if_pos hstop, hslice, List.map_singleton, List.map_singleton, hemit]
    · exact List.forall_mem_singleton.mpr List.infix_rfl
    · exact List.forall_mem_singleton.mpr hshort
    · rw [List.take_of_length_le hshort]
      rfl
  | case2 winIdx start _ stop hstop ih =>
    have hlong : start + window < chars.length := by omega
    have hslice : (chars.take stop).drop start = (chars.drop start).take window := by
      rw [List.drop_take]
      congr 1
      omega
    have hdrop : chars.drop (start + step) = (chars.drop start).drop step := by
      rw [List.drop_drop]
    have hnext : start + step < chars.length := by
      simp only [step, window, overlap] at hlong ⊢
      omega
    obtain ⟨windows, htexts, hcovers, hle, hhead⟩ := ih hnext
    obtain ⟨w, ws, rfl⟩ : ∃ w ws, windows = w :: ws :=
      List.exists_cons_of_ne_nil fun hnil => by rw [hnil] at hhead; cases hhead
    rw [hdrop] at hcovers hhead
    refine ⟨(chars.drop start).take window :: w :: ws, ?_, ?_, ?_, rfl⟩
    · rw [windowsFrom, if_pos hstart]
      dsimp only
      rw [if_neg hstop, List.map_cons, List.map_cons, htexts, hemit, hslice]
    · refine hcovers.cons (Option.some_inj.mp hhead) ?_
      rw [List.length_drop]
      omega
    · exact List.forall_mem_cons.mpr ⟨List.length_take_le _ _, hle⟩
  | case3 winIdx start hnot => exact absurd hstart hnot

/-- **The chunks of a message are a cover of it.** -/
theorem splitMessageContent_covers (content pre : Text) (role ts : String) (msgIdx : ℕ)
    (sourceId : String) :
    ∃ windows, (splitMessageContent content pre role ts msgIdx sourceId).map Chunk.text =
        windows.map (pre ++ ·) ∧ Covers (trim content) windows ∧
      (threshold < len (trim content) → ∀ w ∈ windows, w.length ≤ window) := by
  rw [splitMessageContent]
  split
  next hshort =>
    refine ⟨[trim content], rfl, ⟨?_, List.isChain_singleton _, List.append_nil _⟩,
      fun hlong => absurd hshort (Nat.not_le.mpr hlong)⟩
    exact List.forall_mem_singleton.mpr List.infix_rfl
  next hlong =>
    have hpos : 0 < (trim content).length := by
      refine List.length_pos_iff.mpr fun hnil => hlong ?_
      rw [hnil]
      decide
    have hemit : ∀ winIdx slice,
        (Chunk.mk (pre ++ slice) (messageMeta role ts msgIdx sourceId winIdx)).text =
          pre ++ slice := fun _ _ => rfl
    obtain ⟨windows, htexts, hcovers, hle, -⟩ := windowsFrom_covers hemit hpos
    exact ⟨windows, htexts, hcovers, fun _ => hle⟩

/-! ## Paragraphs -/

/-- No empty line is in a text, and it has nothing to trim off. -/
structure Paragraph (para : Text) : Prop where
  ne_nil : para ≠ []
  trimmed : trim para = para
  lines : ¬emptyLine <:+: para

/-- The first piece is what the string starts with. -/
theorem head_splitFrom_prefix {pat : Text} (t : Text) {w : Text} {ws : List Text}
    (h : splitFrom pat 0 t = w :: ws) : w <+: t := by
  induction t generalizing w ws with
  | nil =>
    rw [splitFrom, List.cons.injEq] at h
    exact h.1 ▸ List.nil_prefix
  | cons c t ih =>
    rw [splitFrom] at h
    split at h
    next => exact (List.cons.inj h).1 ▸ List.nil_prefix
    next =>
      obtain ⟨w', ws', hsplit⟩ := List.exists_cons_of_ne_nil (splitFrom_ne_nil pat 0 t)
      rw [hsplit, List.modifyHead_cons, List.cons.injEq] at h
      rw [← h.1]
      exact List.cons_prefix_cons.mpr ⟨rfl, ih hsplit⟩

/-- **No piece has the separator in it.** -/
theorem not_infix_of_mem_splitFrom {pat : Text} (hpat : pat ≠ []) {k : ℕ} {t w : Text}
    (h : w ∈ splitFrom pat k t) : ¬pat <:+: w := by
  induction t generalizing k w with
  | nil =>
    rw [splitFrom, List.mem_singleton] at h
    rw [h, List.infix_nil]
    exact hpat
  | cons c t ih =>
    cases k with
    | succ k => exact ih h
    | zero =>
      rw [splitFrom] at h
      split at h
      next =>
        rcases List.mem_cons.mp h with rfl | h
        · rwa [List.infix_nil]
        · exact ih h
      next hprefix =>
        obtain ⟨w', ws', hsplit⟩ := List.exists_cons_of_ne_nil (splitFrom_ne_nil pat 0 t)
        rw [hsplit] at h
        rcases List.mem_cons.mp h with rfl | h
        · -- an occurrence at the front would be one in the string
          have hfront : ¬pat <+: c :: w' := fun hpre =>
            hprefix (List.isPrefixOf_iff_prefix.mpr (hpre.trans
              (List.cons_prefix_cons.mpr ⟨rfl, head_splitFrom_prefix t hsplit⟩)))
          rw [List.infix_cons_iff, not_or]
          exact ⟨hfront, ih (hsplit ▸ List.mem_cons_self)⟩
        · exact ih (hsplit ▸ List.mem_cons_of_mem w' h)

/-! ### What is joined is split again -/

theorem Paragraph.head_not_white {para : Text} (h : Paragraph para) :
    ∀ c ∈ para.head?, isWhitespace c = false := by
  intro c hc
  obtain ⟨rest, rfl⟩ := List.head?_eq_some_iff.mp hc
  by_contra hwhite
  have hlead := congrArg List.length (trim_split (c :: rest))
  rw [h.trimmed, leading, List.takeWhile_cons_of_pos (Bool.not_eq_false _ ▸ hwhite)] at hlead
  simp only [List.length_append, List.length_cons] at hlead
  omega

theorem Paragraph.last_not_white {para : Text} (h : Paragraph para) :
    ∀ c ∈ para.getLast?, isWhitespace c = false := by
  intro c hc
  obtain ⟨rest, rfl⟩ := List.getLast?_eq_some_iff.mp hc
  have hdrop : (rest ++ [c]).dropWhile isWhitespace = rest ++ [c] := by
    obtain ⟨x, xs, hx⟩ := List.exists_cons_of_ne_nil h.ne_nil
    rw [hx]
    refine List.dropWhile_cons_of_neg ?_
    rw [h.head_not_white x (by rw [hx]; rfl)]
    decide
  have htrim := h.trimmed
  rw [trim, hdrop, List.rdropWhile_concat] at htrim
  by_contra hwhite
  rw [if_pos (Bool.not_eq_false _ ▸ hwhite)] at htrim
  have hle := (List.rdropWhile_prefix isWhitespace rest).length_le
  rw [htrim, List.length_append, List.length_singleton] at hle
  omega

theorem Paragraph.not_isPrefixOf {c : Char} {para : Text} (h : ¬emptyLine <:+: c :: para)
    (hlast : ∀ x ∈ (c :: para).getLast?, x ≠ '\n') (rest : Text) :
    ¬emptyLine.isPrefixOf (c :: (para ++ rest)) = true := by
  rw [List.isPrefixOf_iff_prefix, emptyLine, List.cons_prefix_cons]
  rintro ⟨rfl, hnext⟩
  cases para with
  | nil => exact hlast '\n' rfl rfl
  | cons d para =>
    obtain ⟨rfl, -⟩ := List.cons_prefix_cons.mp hnext
    exact h ⟨[], para, rfl⟩

/-- A text without an empty line is a piece of its own, before the separator and at the end. -/
theorem splitFrom_append {para : Text} (h : ¬emptyLine <:+: para)
    (hlast : ∀ x ∈ para.getLast?, x ≠ '\n') (rest : Text) :
    splitFrom emptyLine 0 (para ++ emptyLine ++ rest) = para :: splitFrom emptyLine 0 rest := by
  induction para with
  | nil => rfl
  | cons c para ih =>
    have hpara : ¬emptyLine <:+: para := fun hin => h (hin.trans (List.suffix_cons c para).isInfix)
    have htail : ∀ x ∈ para.getLast?, x ≠ '\n' := fun x hx => hlast x <| by
      obtain ⟨d, para, rfl⟩ := List.exists_cons_of_ne_nil
        (List.getLast?_isSome.mp (Option.isSome_iff_exists.mpr ⟨x, hx⟩))
      rwa [List.getLast?_cons_cons]
    rw [List.append_assoc, List.cons_append, splitFrom,
      if_neg (Paragraph.not_isPrefixOf h hlast _), ← List.append_assoc, ih hpara htail]
    rfl

theorem splitFrom_self {para : Text} (h : ¬emptyLine <:+: para) :
    splitFrom emptyLine 0 para = [para] := by
  induction para with
  | nil => rfl
  | cons c para ih =>
    have hprefix : ¬emptyLine.isPrefixOf (c :: para) = true := fun hpre =>
      h (List.isPrefixOf_iff_prefix.mp hpre).isInfix
    rw [splitFrom, if_neg hprefix, ih fun hin => h (hin.trans (List.suffix_cons c para).isInfix)]
    rfl

/-- **Paragraphs with empty lines between them are split into what they are.** -/
theorem splitStr_intercalate {paras : List Text} (hne : paras ≠ [])
    (h : ∀ para ∈ paras, Paragraph para) :
    splitStr (emptyLine.intercalate paras) emptyLine = paras := by
  induction paras with
  | nil => exact absurd rfl hne
  | cons para paras ih =>
    obtain ⟨hpara, hparas⟩ := List.forall_mem_cons.mp h
    by_cases hnil : paras = []
    · rw [hnil, List.intercalate_singleton]
      exact splitFrom_self hpara.lines
    · have hlast : ∀ x ∈ para.getLast?, x ≠ '\n' := by
        rintro x hx rfl
        exact absurd (hpara.last_not_white _ hx) (by decide)
      rw [List.intercalate_cons_of_ne_nil hnil, splitStr, splitFrom_append hpara.lines hlast,
        ← splitStr, ih hnil hparas]

theorem intercalate_ne_nil {paras : List Text} (hne : paras ≠ [])
    (h : ∀ para ∈ paras, Paragraph para) : emptyLine.intercalate paras ≠ [] := by
  intro hnil
  have hsplit := splitStr_intercalate hne h
  rw [hnil] at hsplit
  exact (h [] (hsplit ▸ List.mem_singleton_self [])).ne_nil rfl

/-- Nothing is trimmed off. -/
theorem trim_intercalate {paras : List Text} (h : ∀ para ∈ paras, Paragraph para) :
    trim (emptyLine.intercalate paras) = emptyLine.intercalate paras := by
  refine trim_eq_self ?_ ?_
  · cases paras with
    | nil => simp
    | cons para paras =>
      have hpara := h para List.mem_cons_self
      obtain ⟨c, rest, rfl⟩ := List.exists_cons_of_ne_nil hpara.ne_nil
      rw [List.intercalate_cons_cons_left]
      exact hpara.head_not_white
  · induction paras with
    | nil => simp
    | cons para paras ih =>
      obtain ⟨hpara, hparas⟩ := List.forall_mem_cons.mp h
      by_cases hnil : paras = []
      · rw [hnil, List.intercalate_singleton]
        exact hpara.last_not_white
      · rw [List.intercalate_cons_of_ne_nil hnil,
          List.getLast?_append_of_ne_nil _ (intercalate_ne_nil hnil hparas)]
        exact ih hparas

theorem intercalate_concat {paras : List Text} (h : ∀ para ∈ paras, Paragraph para) (para : Text) :
    emptyLine.intercalate (paras ++ [para]) =
      if (emptyLine.intercalate paras).isEmpty then para
      else emptyLine.intercalate paras ++ emptyLine ++ para := by
  induction paras with
  | nil => exact List.intercalate_singleton
  | cons first paras ih =>
    have hne := intercalate_ne_nil (List.cons_ne_nil first paras) h
    have hparas := (List.forall_mem_cons.mp h).2
    rw [if_neg (List.isEmpty_iff.not.mpr hne), List.cons_append,
      List.intercalate_cons_of_ne_nil (List.concat_ne_nil _ _), ih hparas]
    by_cases hnil : paras = []
    · rw [hnil, List.intercalate_singleton]
      rfl
    · rw [if_neg (List.isEmpty_iff.not.mpr (intercalate_ne_nil hnil hparas)),
        List.intercalate_cons_of_ne_nil hnil]
      simp

/-! ### The buffer -/

/-- The chunks are split into paragraphs, and none is empty. -/
def SplitsInto (chunks : List Chunk) (paras : List Text) : Prop :=
  chunks.flatMap (fun c => splitStr c.text emptyLine) = paras ∧ ∀ c ∈ chunks, c.text ≠ []

theorem SplitsInto.append {chunks chunks' : List Chunk} {paras paras' : List Text}
    (h : SplitsInto chunks paras) (h' : SplitsInto chunks' paras') :
    SplitsInto (chunks ++ chunks') (paras ++ paras') :=
  ⟨by rw [List.flatMap_append, h.1, h'.1], List.forall_mem_append.mpr ⟨h.2, h'.2⟩⟩

/-- What is in the buffer, as a chunk. -/
theorem splitsInto_paragraphChunk (sourceId : String) {held : List Text} (hne : held ≠ [])
    (h : ∀ para ∈ held, Paragraph para) :
    SplitsInto [paragraphChunk sourceId (emptyLine.intercalate held)] held := by
  have htext : (paragraphChunk sourceId (emptyLine.intercalate held)).text =
      emptyLine.intercalate held := trim_intercalate h
  refine ⟨?_, List.forall_mem_singleton.mpr ?_⟩
  · rw [List.flatMap_singleton, htext, splitStr_intercalate hne h]
  · rw [htext]
    exact intercalate_ne_nil hne h

theorem paragraph_trim {piece : Text} (hlines : ¬emptyLine <:+: piece) (hne : trim piece ≠ []) :
    Paragraph (trim piece) where
  ne_nil := hne
  trimmed := trim_trim piece
  lines := fun hin => hlines (hin.trans
    ⟨leading piece, trailing piece, by rw [List.append_assoc]; exact (trim_split piece).symm⟩)

/-- After a paragraph is gathered the buffer is flushed, or goes on. -/
theorem gathered_splitsInto {sourceId : String} {pieces paras : List Text}
    (hrest : ∀ held, (∀ para ∈ held, Paragraph para) →
      SplitsInto (paragraphsFrom sourceId (emptyLine.intercalate held) pieces) (held ++ paras))
    {held before : List Text} {flushed : List Chunk} (hflushed : SplitsInto flushed before)
    (hne : held ≠ []) (hheld : ∀ para ∈ held, Paragraph para) :
    SplitsInto
      (if target ≤ len (emptyLine.intercalate held) then
        flushed ++ paragraphChunk sourceId (emptyLine.intercalate held) ::
          paragraphsFrom sourceId [] pieces
      else flushed ++ paragraphsFrom sourceId (emptyLine.intercalate held) pieces)
      (before ++ (held ++ paras)) := by
  split
  next =>
    have hnone : SplitsInto (paragraphsFrom sourceId [] pieces) paras :=
      hrest [] fun para hpara => absurd hpara List.not_mem_nil
    exact hflushed.append ((splitsInto_paragraphChunk sourceId hne hheld).append hnone)
  next => exact hflushed.append (hrest held hheld)

/-- **The loop loses nothing of the buffer and of what is ahead.** -/
theorem paragraphsFrom_splitsInto (sourceId : String) {held pieces : List Text}
    (hheld : ∀ para ∈ held, Paragraph para) (hpieces : ∀ piece ∈ pieces, ¬emptyLine <:+: piece) :
    SplitsInto (paragraphsFrom sourceId (emptyLine.intercalate held) pieces)
      (held ++ (pieces.map trim).filter fun para => !para.isEmpty) := by
  induction pieces generalizing held with
  | nil =>
    rw [paragraphsFrom, trim_intercalate hheld, List.map_nil, List.filter_nil, List.append_nil]
    by_cases hnil : held = []
    · rw [hnil]
      exact ⟨rfl, fun c hc => absurd hc List.not_mem_nil⟩
    · rw [if_neg (List.isEmpty_iff.not.mpr (intercalate_ne_nil hnil hheld))]
      exact splitsInto_paragraphChunk sourceId hnil hheld
  | cons piece pieces ih =>
    obtain ⟨hpiece, hpieces⟩ := List.forall_mem_cons.mp hpieces
    rw [paragraphsFrom, List.map_cons]
    dsimp only
    by_cases hempty : (trim piece).isEmpty = true
    · rw [if_pos hempty, List.filter_cons_of_neg (by rw [hempty]; decide)]
      exact ih hheld hpieces
    · rw [if_neg hempty, List.filter_cons_of_pos (by simpa using hempty)]
      have hpara : Paragraph (trim piece) :=
        paragraph_trim hpiece fun hnil => hempty (List.isEmpty_iff.mpr hnil)
      have hgathered : ∀ para ∈ held ++ [trim piece], Paragraph para :=
        List.forall_mem_append.mpr ⟨hheld, List.forall_mem_singleton.mpr hpara⟩
      by_cases hfull : (maxBytes < len (emptyLine.intercalate held) + len (trim piece) + 2 &&
          !(emptyLine.intercalate held).isEmpty) = true
      · have hne : held ≠ [] := by
          rintro rfl
          simp at hfull
        have hflushed := splitsInto_paragraphChunk sourceId hne hheld
        have hsplit := gathered_splitsInto (fun _ h => ih h hpieces) hflushed
          (List.cons_ne_nil (trim piece) []) (List.forall_mem_singleton.mpr hpara)
        rw [List.intercalate_singleton] at hsplit
        rw [if_pos hfull, if_pos hfull, if_pos List.isEmpty_nil]
        exact hsplit
      · have hnone : SplitsInto [] [] := ⟨rfl, fun c hc => absurd hc List.not_mem_nil⟩
        have hsplit := gathered_splitsInto (fun _ h => ih h hpieces) hnone
          (List.concat_ne_nil (trim piece) held) hgathered
        rw [List.append_assoc held] at hsplit
        rw [if_neg hfull, if_neg hfull, ← intercalate_concat hheld]
        exact hsplit

theorem paragraphChunks_splitsInto (raw : Text) (sourceId : String) :
    SplitsInto (paragraphChunks raw sourceId) (paragraphs raw) := by
  have hnone : ∀ para ∈ ([] : List Text), Paragraph para := fun _ hpara =>
    absurd hpara List.not_mem_nil
  exact paragraphsFrom_splitsInto sourceId hnone fun _ hpiece =>
    not_infix_of_mem_splitFrom (List.cons_ne_nil _ _) hpiece

/-- **Chunking loses no text**, of a message and of a text without messages. -/
theorem chunkSession_lossless [JsonReader] :
    (∀ (content pre : Text) (role ts : String) (msgIdx : ℕ) (sourceId : String),
      ∃ windows, (splitMessageContent content pre role ts msgIdx sourceId).map Chunk.text =
          windows.map (pre ++ ·) ∧ Covers (trim content) windows ∧
        (threshold < len (trim content) → ∀ w ∈ windows, w.length ≤ window)) ∧
    ∀ (raw : Text) (sourceId : String), (arrayChunks raw sourceId).isEmpty →
      (lineChunks raw sourceId).isEmpty →
      SplitsInto (chunkSession raw sourceId) (paragraphs raw) := by
  refine ⟨splitMessageContent_covers, fun raw sourceId harray hlines => ?_⟩
  rw [chunkSession, harray, hlines]
  exact paragraphChunks_splitsInto raw sourceId

/-- A reader that finds no JSON. -/
@[reducible] def JsonReader.nothing : JsonReader := ⟨fun _ => none, fun _ => none⟩

theorem chunkSession_lossless_text :
    SplitsInto (@chunkSession JsonReader.nothing "a b\n\n\n c".toList "s")
      ["a b".toList, "c".toList] :=
  (@chunkSession_lossless JsonReader.nothing).2 "a b\n\n\n c".toList "s" (by decide) (by decide)

end SynapseMemory.SessionChunks
