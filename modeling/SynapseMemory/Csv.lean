import Mathlib

/-!
# Comma-separated values

A reader of comma-separated values as RFC 4180 describes them. A record ends with a line feed, or a
carriage return and a line feed. A field is bare, and then has no quote, comma, carriage return or
line feed in it, or it stands between quotes, and each quote in it is doubled.

A writer quotes some of the fields and leaves the others bare. What it writes is read back if each
field is quoted or has nothing special in it (`read_render`). Of a writer that quotes all fields
with a comma, a quote or a line feed, what it writes is read back only if it quotes the fields with
a carriage return too (`read_render_iff`).
-/

namespace Csv

/-- A record, as the list of its fields. -/
abbrev Record : Type := List (List Char)

/-! ## The reader -/

/-- What the reader is in. -/
inductive Mode where
  /-- before a field -/
  | start
  | bare
  | quoted
  /-- after a quote in a quoted field -/
  | closed
  /-- after a carriage return -/
  | cr
  deriving DecidableEq

/-- What a reader has read: whole records, the fields of the next one, and a part of its next
field. -/
structure State where
  records : List Record
  record : Record
  field : List Char
  mode : Mode

namespace State

/-- A comma ends a field. -/
def endField (s : State) : State := ⟨s.records, s.record ++ [s.field], [], .start⟩

/-- A line feed ends a record. -/
def endRecord (s : State) : State := ⟨s.records ++ [s.record ++ [s.field]], [], [], .start⟩

/-- A character is added to the field. -/
def push (s : State) (c : Char) (mode : Mode) : State := { s with field := s.field ++ [c], mode }

/-- The end of a field: `none` at any other character. -/
def delimit (s : State) (c : Char) : Option State :=
  if c = ',' then some s.endField
  else if c = '\n' then some s.endRecord
  else if c = '\r' then some { s with mode := .cr }
  else none

/-- A character in a bare field, or the end of it. -/
def bare (s : State) (c : Char) : State :=
  match s.delimit c with
  | some s' => s'
  | none => s.push c .bare

/-- One character. -/
def step (s : State) (c : Char) : Option State :=
  match s.mode with
  | .start => if c = '"' then some { s with mode := .quoted } else some (s.bare c)
  | .bare => if c = '"' then none else some (s.bare c)
  | .quoted => if c = '"' then some { s with mode := .closed } else some (s.push c .quoted)
  | .closed => if c = '"' then some (s.push c .quoted) else s.delimit c
  | .cr => if c = '\n' then some s.endRecord else none

/-- The end of the text. The last record may end without a line feed. -/
def finish (s : State) : Option (List Record) :=
  match s.mode with
  | .start => if s.record = [] then some s.records else some s.endRecord.records
  | .bare => some s.endRecord.records
  | .closed => some s.endRecord.records
  | .quoted => none
  | .cr => none

/-- The reader at the beginning of a field. -/
def before (records : List Record) (record : Record) : State := ⟨records, record, [], .start⟩

/-- The field is complete. -/
def AtEnd (s : State) : Prop := s.mode = .start ∨ s.mode = .bare ∨ s.mode = .closed

end State

/-- The records of a text, if it is one of records. -/
def read (t : List Char) : Option (List Record) :=
  (t.foldlM State.step (State.before [] [])).bind State.finish

/-! ## The writer -/

/-- A field between quotes. -/
def quote (f : List Char) : List Char :=
  '"' :: (f.flatMap fun c => if c = '"' then ['"', '"'] else [c]) ++ ['"']

/-- A field, quoted or bare. -/
def escape (quotes : List Char → Bool) (f : List Char) : List Char :=
  if quotes f then quote f else f

/-- A record on a line of its own. -/
def renderRecord (quotes : List Char → Bool) (r : Record) : List Char :=
  [','].intercalate (r.map (escape quotes)) ++ ['\n']

/-- The records, each on a line of its own. -/
def render (quotes : List Char → Bool) (records : List Record) : List Char :=
  records.flatMap (renderRecord quotes)

/-! ## Fields -/

/-- Nothing that ends a bare field, or cannot stand in it. -/
def Plain (t : List Char) : Prop := ∀ c ∈ t, c ≠ ',' ∧ c ≠ '"' ∧ c ≠ '\n' ∧ c ≠ '\r'

theorem step_plain {s : State} (hmode : s.mode = .start ∨ s.mode = .bare) {c : Char}
    (hc : c ≠ ',' ∧ c ≠ '"' ∧ c ≠ '\n' ∧ c ≠ '\r') : s.step c = some (s.push c .bare) := by
  obtain ⟨hcomma, hquote, hlf, hcr⟩ := hc
  have hbare : s.bare c = s.push c .bare := by
    rw [State.bare, State.delimit, if_neg hcomma, if_neg hlf, if_neg hcr]
  rcases hmode with hmode | hmode <;> simp [State.step, hmode, hquote, hbare]

/-- A bare field is read. -/
theorem run_plain {t : List Char} (ht : Plain t) {s : State}
    (hmode : s.mode = .start ∨ s.mode = .bare) :
    ∃ s', t.foldlM State.step s = some s' ∧ s'.records = s.records ∧ s'.record = s.record ∧
      s'.field = s.field ++ t ∧ (s'.mode = .start ∨ s'.mode = .bare) := by
  induction t generalizing s with
  | nil => exact ⟨s, rfl, rfl, rfl, (List.append_nil _).symm, hmode⟩
  | cons c t ih =>
    obtain ⟨s', hrun, hrecords, hrecord, hfield, hmode'⟩ :=
      ih (fun x hx => ht x (List.mem_cons_of_mem c hx)) (s := s.push c .bare) (.inr rfl)
    refine ⟨s', ?_, hrecords, hrecord, ?_, hmode'⟩
    · rw [List.foldlM_cons, step_plain hmode (ht c List.mem_cons_self)]
      exact hrun
    · rw [hfield, State.push, List.append_assoc, List.singleton_append]

/-- What stands between the quotes is read, each doubled quote as one. -/
theorem run_quoted (f : List Char) (s : State) (hmode : s.mode = .quoted) :
    (f.flatMap fun c => if c = '"' then ['"', '"'] else [c]).foldlM State.step s =
      some { s with field := s.field ++ f } := by
  induction f generalizing s with
  | nil => simp
  | cons c f ih =>
    rw [List.flatMap_cons, List.foldlM_append]
    have hchar : (if c = '"' then ['"', '"'] else [c]).foldlM State.step s =
        some (s.push c .quoted) := by
      split
      next hc =>
        subst hc
        simp [State.step, hmode, State.push]
      next hc => simp [State.step, hmode, hc]
    rw [hchar]
    change (f.flatMap _).foldlM State.step (s.push c .quoted) = _
    rw [ih _ rfl, State.push, List.append_assoc, List.singleton_append, ← hmode]

/-- This text is read as this field. -/
def ReadsAs (t f : List Char) : Prop :=
  ∀ records record, ∃ s, t.foldlM State.step (State.before records record) = some s ∧
    s.records = records ∧ s.record = record ∧ s.field = f ∧ s.AtEnd

theorem readsAs_quote (f : List Char) : ReadsAs (quote f) f := by
  intro records record
  refine ⟨⟨records, record, f, .closed⟩, ?_, rfl, rfl, rfl, .inr (.inr rfl)⟩
  have hopen : (State.before records record).step '"' = some ⟨records, record, [], .quoted⟩ := rfl
  rw [quote, List.cons_append, List.foldlM_cons, hopen]
  change (f.flatMap _ ++ ['"']).foldlM State.step _ = _
  rw [List.foldlM_append, run_quoted f _ rfl]
  rfl

theorem readsAs_plain {f : List Char} (hf : Plain f) : ReadsAs f f := by
  intro records record
  obtain ⟨s, hrun, hrecords, hrecord, hfield, hmode⟩ :=
    run_plain hf (s := State.before records record) (.inl rfl)
  exact ⟨s, hrun, hrecords, hrecord, hfield, hmode.imp_right .inl⟩

theorem readsAs_escape {quotes : List Char → Bool} {f : List Char}
    (h : quotes f = true ∨ Plain f) : ReadsAs (escape quotes f) f := by
  rw [escape]
  split
  · exact readsAs_quote f
  next hq => exact readsAs_plain (h.resolve_left hq)

/-! ## Records -/

theorem step_comma {s : State} (h : s.AtEnd) : s.step ',' = some s.endField := by
  rcases h with h | h | h <;> simp [State.step, State.bare, State.delimit, h]

theorem step_lineFeed {s : State} (h : s.AtEnd) : s.step '\n' = some s.endRecord := by
  rcases h with h | h | h <;> simp [State.step, State.bare, State.delimit, h]

theorem step_carriageReturn {s : State} (h : s.AtEnd) :
    s.step '\r' = some { s with mode := .cr } := by
  rcases h with h | h | h <;> simp [State.step, State.bare, State.delimit, h]

/-- A field that is complete ends with a comma or a line feed. -/
theorem ReadsAs.comma {t f : List Char} (h : ReadsAs t f) (rest : List Char)
    (records : List Record) (record : Record) :
    (t ++ ',' :: rest).foldlM State.step (State.before records record) =
      rest.foldlM State.step (State.before records (record ++ [f])) := by
  obtain ⟨s, hrun, rfl, rfl, rfl, hend⟩ := h records record
  rw [List.foldlM_append, hrun]
  change (',' :: rest).foldlM State.step s = _
  rw [List.foldlM_cons, step_comma hend]
  rfl

/-- A field at the end of a line ends its record. -/
theorem ReadsAs.lineFeed {t f : List Char} (h : ReadsAs t f) (rest : List Char)
    (records : List Record) (record : Record) :
    (t ++ '\n' :: rest).foldlM State.step (State.before records record) =
      rest.foldlM State.step (State.before (records ++ [record ++ [f]]) []) := by
  obtain ⟨s, hrun, rfl, rfl, rfl, hend⟩ := h records record
  rw [List.foldlM_append, hrun]
  change ('\n' :: rest).foldlM State.step s = _
  rw [List.foldlM_cons, step_lineFeed hend]
  rfl

/-- The text of a record, field by field. -/
theorem renderRecord_cons (quotes : List Char → Bool) (f : List Char) (fs : Record) :
    renderRecord quotes (f :: fs) =
      escape quotes f ++ (if fs = [] then ['\n'] else ',' :: renderRecord quotes fs) := by
  cases fs with
  | nil => simp [renderRecord]
  | cons g gs => simp [renderRecord, List.intercalate_cons_cons]

/-- The first fields of a record are read. -/
theorem run_fields {quotes : List Char → Bool} {fs gs : Record} (hgs : gs ≠ [])
    (hfs : ∀ f ∈ fs, ReadsAs (escape quotes f) f) (rest : List Char) (records : List Record)
    (record : Record) :
    (renderRecord quotes (fs ++ gs) ++ rest).foldlM State.step (State.before records record) =
      (renderRecord quotes gs ++ rest).foldlM State.step (State.before records (record ++ fs)) := by
  induction fs generalizing record with
  | nil => rw [List.nil_append, List.append_nil]
  | cons f fs ih =>
    have hne : fs ++ gs ≠ [] := fun h => hgs (List.append_eq_nil_iff.mp h).2
    rw [List.cons_append, renderRecord_cons, if_neg hne, List.append_assoc, List.cons_append,
      (hfs f List.mem_cons_self).comma, ih fun x hx => hfs x (List.mem_cons_of_mem f hx),
      List.append_assoc, List.singleton_append]

/-- A record is read. -/
theorem run_record {quotes : List Char → Bool} {r : Record} (hr : r ≠ [])
    (hfs : ∀ f ∈ r, ReadsAs (escape quotes f) f) (rest : List Char) (records : List Record) :
    (renderRecord quotes r ++ rest).foldlM State.step (State.before records []) =
      rest.foldlM State.step (State.before (records ++ [r]) []) := by
  have hlast : r.dropLast ++ [r.getLast hr] = r := List.dropLast_append_getLast hr
  have hbefore : ∀ f ∈ r.dropLast, ReadsAs (escape quotes f) f := fun f hf =>
    hfs f (List.dropLast_subset _ hf)
  have hrun := run_fields (List.cons_ne_nil (r.getLast hr) []) hbefore rest records []
  rw [hlast] at hrun
  rw [hrun, renderRecord_cons, if_pos rfl, List.append_assoc, List.singleton_append,
    (hfs _ (List.getLast_mem hr)).lineFeed, List.nil_append, hlast]

/-- Rendered records are read, and what follows is read after them. -/
theorem run_records {quotes : List Char → Bool} {rs : List Record}
    (hrs : ∀ r ∈ rs, r ≠ [] ∧ ∀ f ∈ r, ReadsAs (escape quotes f) f) (rest : List Char)
    (records : List Record) :
    (render quotes rs ++ rest).foldlM State.step (State.before records []) =
      rest.foldlM State.step (State.before (records ++ rs) []) := by
  induction rs generalizing records with
  | nil => rw [List.append_nil]; rfl
  | cons r rs ih =>
    obtain ⟨hr, hfs⟩ := hrs r List.mem_cons_self
    rw [render, List.flatMap_cons, List.append_assoc, run_record hr hfs, ← render,
      ih fun x hx => hrs x (List.mem_cons_of_mem r hx), List.append_assoc, List.singleton_append]

/-- **What is quoted where it has to be is read back.** -/
theorem read_render {quotes : List Char → Bool} {rs : List Record}
    (hrs : ∀ r ∈ rs, r ≠ [] ∧ ∀ f ∈ r, quotes f = true ∨ Plain f) :
    read (render quotes rs) = some rs := by
  have hread : ∀ r ∈ rs, r ≠ [] ∧ ∀ f ∈ r, ReadsAs (escape quotes f) f := fun r hr =>
    ⟨(hrs r hr).1, fun f hf => readsAs_escape ((hrs r hr).2 f hf)⟩
  have hrun := run_records hread [] []
  rw [List.append_nil] at hrun
  rw [read, hrun]
  rfl

/-! ## A carriage return in a bare field -/

theorem records_of_delimit {s s' : State} {c : Char} (h : s.delimit c = some s') :
    s.records <+: s'.records := by
  rw [State.delimit] at h
  split_ifs at h <;> obtain rfl := Option.some.inj h
  · exact List.prefix_rfl
  · exact List.prefix_append _ _
  · exact List.prefix_rfl

theorem records_bare (s : State) (c : Char) : s.records <+: (s.bare c).records := by
  rw [State.bare]
  split
  next h => exact records_of_delimit h
  next => exact List.prefix_rfl

/-- What was read stays. -/
theorem records_of_step {s s' : State} {c : Char} (h : s.step c = some s') :
    s.records <+: s'.records := by
  rw [State.step] at h
  split at h
  case h_1 =>
    split at h <;> obtain rfl := Option.some.inj h
    · exact List.prefix_rfl
    · exact records_bare s c
  case h_2 =>
    split at h
    · cases h
    · obtain rfl := Option.some.inj h
      exact records_bare s c
  case h_3 => split at h <;> obtain rfl := Option.some.inj h <;> exact List.prefix_rfl
  case h_4 =>
    split at h
    · obtain rfl := Option.some.inj h
      exact List.prefix_rfl
    · exact records_of_delimit h
  case h_5 =>
    split at h
    · obtain rfl := Option.some.inj h
      exact List.prefix_append _ _
    · cases h

/-- No run takes a record back. -/
theorem records_of_run {t : List Char} {s s' : State} (h : t.foldlM State.step s = some s') :
    s.records <+: s'.records := by
  induction t generalizing s with
  | nil =>
    obtain rfl := Option.some.inj h
    exact List.prefix_rfl
  | cons c t ih =>
    rw [List.foldlM_cons] at h
    obtain ⟨s₁, hstep, h⟩ := Option.bind_eq_some_iff.mp h
    exact (records_of_step hstep).trans (ih h)

/-- Neither does the end of the text. -/
theorem records_of_finish {s : State} {all : List Record} (h : s.finish = some all) :
    s.records <+: all := by
  have hrest : s.endRecord.records = all → s.records <+: all := fun h => h ▸ List.prefix_append _ _
  rw [State.finish] at h
  split at h
  case h_1 =>
    split at h
    · exact Option.some.inj h ▸ List.prefix_rfl
    · exact hrest (Option.some.inj h)
  case h_2 => exact hrest (Option.some.inj h)
  case h_3 => exact hrest (Option.some.inj h)
  case h_4 => cases h
  case h_5 => cases h

/-- After a carriage return there is a line feed, or the text is not read. -/
theorem step_cr {s : State} (h : s.mode = .cr) {c : Char} (hc : c ≠ '\n') : s.step c = none := by
  simp [State.step, h, hc]

section Bare

variable {quotes : List Char → Bool}
  (hquotes : ∀ f, quotes f = false → ',' ∉ f ∧ '"' ∉ f ∧ '\n' ∉ f)
include hquotes

/-- A field without a carriage return is plain or quoted. -/
theorem quotes_or_plain {f : List Char} (hf : quotes f = true ∨ '\r' ∉ f) :
    quotes f = true ∨ Plain f := by
  cases hq : quotes f with
  | true => exact .inl rfl
  | false =>
    obtain ⟨hcomma, hquote, hlf⟩ := hquotes f hq
    have hcr : '\r' ∉ f := hf.resolve_left (by simp [hq])
    refine .inr fun c hc => ⟨?_, ?_, ?_, ?_⟩ <;> rintro rfl <;> contradiction

/-- A field that is bare and has a carriage return in it. -/
theorem split_bare {f : List Char} (hbare : quotes f = false) (hcr : '\r' ∈ f) :
    ∃ a b, f = a ++ '\r' :: b ∧ Plain a ∧ '\n' ∉ b := by
  obtain ⟨hcomma, hquote, hlf⟩ := hquotes f hbare
  obtain ⟨a, b, rfl, ha⟩ := List.eq_append_cons_of_mem hcr
  refine ⟨a, b, rfl, fun c hc => ⟨?_, ?_, ?_, ?_⟩, fun h => hlf ?_⟩
  · rintro rfl
    exact hcomma (List.mem_append_left _ hc)
  · rintro rfl
    exact hquote (List.mem_append_left _ hc)
  · rintro rfl
    exact hlf (List.mem_append_left _ hc)
  · rintro rfl
    exact ha hc
  · exact List.mem_append_right _ (List.mem_cons_of_mem _ h)

/-- It spoils the record: the text is not read, or the record that is read ends before it. -/
theorem record_of_bare {f : List Char} (hbare : quotes f = false) (hcr : '\r' ∈ f)
    {fs : Record} {rest : List Char} {records all : List Record} {record : Record}
    (h : ((renderRecord quotes (f :: fs) ++ rest).foldlM State.step
      (State.before records record)).bind State.finish = some all) :
    ∃ r, r ≠ record ++ f :: fs ∧ (records ++ [r]) <+: all := by
  obtain ⟨a, b, rfl, ha, hb⟩ := split_bare hquotes hbare hcr
  obtain ⟨s, hrun, rfl, rfl, rfl, hend⟩ := readsAs_plain ha records record
  rw [renderRecord_cons, escape, hbare, if_neg Bool.false_ne_true, List.append_assoc,
    List.append_assoc, List.cons_append, List.foldlM_append, hrun] at h
  obtain ⟨s', hrun', hfinish⟩ := Option.bind_eq_some_iff.mp h
  change ('\r' :: (b ++ _)).foldlM State.step s = some s' at hrun'
  rw [List.foldlM_cons, step_carriageReturn hend] at hrun'
  change (b ++ _).foldlM State.step { s with mode := .cr } = some s' at hrun'
  -- the character after the carriage return
  cases b with
  | cons c b =>
    have hc : c ≠ '\n' := fun hc => hb (hc ▸ List.mem_cons_self)
    rw [List.cons_append, List.foldlM_cons, step_cr rfl hc] at hrun'
    cases hrun'
  | nil =>
    by_cases hfs : fs = []
    · subst hfs
      rw [if_pos rfl, List.nil_append, List.singleton_append, List.foldlM_cons] at hrun'
      change rest.foldlM State.step { s with mode := .cr }.endRecord = some s' at hrun'
      refine ⟨s.record ++ [s.field], fun hsame => ?_,
        (records_of_run hrun').trans (records_of_finish hfinish)⟩
      have hlen := congrArg List.length (List.singleton_inj.mp (List.append_cancel_left hsame))
      rw [List.length_append] at hlen
      simp at hlen
    · rw [if_neg hfs, List.nil_append, List.cons_append, List.foldlM_cons,
        step_cr rfl (by decide)] at hrun'
      cases hrun'

/-- A record that has such a field is not read. -/
theorem record_read {fs : Record} {rest : List Char} {records all : List Record} {record : Record}
    (h : ((renderRecord quotes fs ++ rest).foldlM State.step
      (State.before records record)).bind State.finish = some all) :
    (∀ f ∈ fs, quotes f = true ∨ '\r' ∉ f) ∨ ∃ r, r ≠ record ++ fs ∧ (records ++ [r]) <+: all := by
  induction fs generalizing record with
  | nil => exact .inl nofun
  | cons f fs ih =>
    by_cases hf : quotes f = true ∨ '\r' ∉ f
    · rw [renderRecord_cons, List.append_assoc] at h
      have hread := readsAs_escape (quotes_or_plain hquotes hf)
      by_cases hfs : fs = []
      · subst hfs
        exact .inl fun x hx => List.mem_singleton.mp hx ▸ hf
      · rw [if_neg hfs, List.cons_append, hread.comma] at h
        rcases ih h with hgood | ⟨r, hne, hprefix⟩
        · exact .inl (List.forall_mem_cons.mpr ⟨hf, hgood⟩)
        · refine .inr ⟨r, fun hr => hne ?_, hprefix⟩
          rw [hr, List.append_assoc, List.singleton_append]
    · rw [not_or, not_not, Bool.not_eq_true] at hf
      exact .inr (record_of_bare hquotes hf.1 hf.2 h)

/-- If the records are read back, no field has a carriage return outside quotes. -/
theorem records_read {rs records : List Record} (hne : ∀ r ∈ rs, r ≠ [])
    (h : ((render quotes rs).foldlM State.step (State.before records [])).bind State.finish =
      some (records ++ rs)) :
    ∀ r ∈ rs, ∀ f ∈ r, quotes f = true ∨ '\r' ∉ f := by
  induction rs generalizing records with
  | nil => exact nofun
  | cons r rs ih =>
    rw [render, List.flatMap_cons, ← render] at h
    have hgood : ∀ f ∈ r, quotes f = true ∨ '\r' ∉ f := by
      refine (record_read hquotes h).resolve_right ?_
      rintro ⟨r', hr', hprefix⟩
      have hsame := List.cons_prefix_cons.mp ((List.prefix_append_right_inj records).mp hprefix)
      exact hr' hsame.1
    rw [run_record (hne r List.mem_cons_self)
      (fun f hf => readsAs_escape (quotes_or_plain hquotes (hgood f hf))),
      List.append_cons records r rs] at h
    exact List.forall_mem_cons.mpr ⟨hgood, ih (fun x hx => hne x (List.mem_cons_of_mem r hx)) h⟩

/-- **When a text is read back.** -/
theorem read_render_iff {rs : List Record} (hne : ∀ r ∈ rs, r ≠ []) :
    read (render quotes rs) = some rs ↔ ∀ r ∈ rs, ∀ f ∈ r, quotes f = true ∨ '\r' ∉ f :=
  ⟨fun h => records_read hquotes hne ((List.nil_append rs).symm ▸ h), fun h =>
    read_render fun r hr =>
    ⟨hne r hr, fun f hf => quotes_or_plain hquotes (h r hr f hf)⟩⟩

end Bare

end Csv
