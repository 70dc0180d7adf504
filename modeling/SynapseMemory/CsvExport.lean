import SynapseMemory.Csv
import SynapseMemory.Outcome
import SynapseMemory.Text

/-!
# The export as comma-separated values

The model of `to_csv` and `write_row` of `synapse-compliance`. A row of the text has the six columns
of a record. `write_row` quotes the fields with a comma, a quote or a line feed, and ends a row with
a line feed; a field with nothing of these but a carriage return is written bare. So a text is read
back as the rows it was made of exactly if no field is of this kind (`csv_roundTrip_iff`).
-/

namespace SynapseMemory.Compliance

/-- A masked record. The map of the counts is the list of its entries, in the order in which the
map goes over them. -/
structure ExportRecord where
  docId : Text
  agent : Text
  ts : ℤ
  contentMasked : Text
  piiCounts : List (Text × ℕ)
  sourceUri : Option Text
  deriving DecidableEq

/-! ## The writer -/

/-- The fields that `write_row` quotes. -/
def needsQuotes (f : Text) : Bool := f.contains ',' || f.contains '"' || f.contains '\n'

/-- `escape_field`: in quotes, with its quotes doubled, if it needs them. -/
def escapeField (f : Text) : Text :=
  if needsQuotes f then
    ['"'] ++ (f.flatMap fun c => if c = '"' then ['"', '"'] else [c]) ++ ['"']
  else f

/-- `write_row`, at the end of the buffer. -/
def writeRow (buf : Text) (fields : List Text) : Text :=
  buf ++ [','].intercalate (fields.map escapeField) ++ ['\n']

/-- `Iterator::sum` of numbers of 32 bits -/
def sumU32 (counts : List ℕ) : Outcome Unit ℕ :=
  counts.foldlM (fun total n => Outcome.unsigned 32 (total + n)) 0

/-- The names of the columns. -/
def csvHeader : List Text :=
  ["doc_id", "agent", "ts", "pii_types", "pii_total", "content_masked"].map String.toList

/-- The row of a record. -/
def pushRecord (buf : Text) (r : ExportRecord) : Outcome Unit Text := do
  let piiTypes := r.piiCounts.map Prod.fst
  let piiTotal ← sumU32 (r.piiCounts.map Prod.snd)
  .ok (writeRow buf [r.docId, r.agent, (toString r.ts).toList, [','].intercalate piiTypes,
    (toString piiTotal).toList, r.contentMasked])

/-- `to_csv`: the header, and each record after it. -/
def toCsv (records : List ExportRecord) : Outcome Unit Text :=
  records.foldlM pushRecord (writeRow [] csvHeader)

/-! ## What a row says -/

/-- The number of detections. -/
def ExportRecord.piiTotal (r : ExportRecord) : ℕ := (r.piiCounts.map Prod.snd).sum

/-- The columns of a record. -/
def ExportRecord.columns (r : ExportRecord) : List Text :=
  [r.docId, r.agent, (toString r.ts).toList, [','].intercalate (r.piiCounts.map Prod.fst),
    (toString r.piiTotal).toList, r.contentMasked]

/-- The texts of a record that the export did not make itself. -/
def ExportRecord.texts (r : ExportRecord) : List Text :=
  [r.docId, r.agent, [','].intercalate (r.piiCounts.map Prod.fst), r.contentMasked]

/-- The text is made, and an RFC 4180 reader finds the header and the records in it. -/
def CsvReadBack (records : List ExportRecord) : Prop :=
  ∃ t, toCsv records = .ok t ∧ Csv.read t = some (csvHeader :: records.map ExportRecord.columns)

theorem writeRow_eq (buf : Text) (fields : List Text) :
    writeRow buf fields = buf ++ Csv.renderRecord needsQuotes fields := by
  rw [writeRow, List.append_assoc]
  rfl

/-- A sum that has room is the sum. -/
theorem sumU32_eq (counts : List ℕ) :
    sumU32 counts = if counts.sum < 2 ^ 32 then .ok counts.sum else .panic := by
  have hfold : ∀ total, total < 2 ^ 32 →
      counts.foldlM (fun total n => Outcome.unsigned 32 (total + n)) total =
        if total + counts.sum < 2 ^ 32 then (.ok (total + counts.sum) : Outcome Unit ℕ)
        else .panic := by
    induction counts with
    | nil =>
      intro total htotal
      rw [List.sum_nil, Nat.add_zero, if_pos htotal]
      rfl
    | cons n counts ih =>
      intro total htotal
      rw [List.foldlM_cons, List.sum_cons, ← Nat.add_assoc]
      by_cases hn : total + n < 2 ^ 32
      · rw [Outcome.unsigned_of hn]
        exact ih _ hn
      · rw [Outcome.unsigned_eq_panic.mpr hn, if_neg (by omega)]
        rfl
  have hzero := hfold 0 (by decide)
  rwa [Nat.zero_add] at hzero

/-- A record is pushed unless its count does not fit. -/
theorem pushRecord_eq (buf : Text) (r : ExportRecord) :
    pushRecord buf r =
      if r.piiTotal < 2 ^ 32 then .ok (buf ++ Csv.renderRecord needsQuotes r.columns)
      else .panic := by
  rw [pushRecord, sumU32_eq, ← ExportRecord.piiTotal]
  split
  next => exact congrArg Outcome.ok (writeRow_eq buf r.columns)
  next => rfl

/-- All are, unless one count does not fit. -/
theorem pushRecords_eq (records : List ExportRecord) (buf : Text) :
    records.foldlM pushRecord buf =
      if ∀ r ∈ records, r.piiTotal < 2 ^ 32 then
        .ok (buf ++ Csv.render needsQuotes (records.map ExportRecord.columns))
      else .panic := by
  induction records generalizing buf with
  | nil =>
    rw [if_pos nofun, List.map_nil, Csv.render, List.flatMap_nil, List.append_nil]
    rfl
  | cons r records ih =>
    rw [List.foldlM_cons, pushRecord_eq]
    by_cases hr : r.piiTotal < 2 ^ 32
    · rw [if_pos hr, Outcome.ok_bind, ih, List.append_assoc]
      simp only [List.forall_mem_cons, hr, true_and, List.map_cons, Csv.render, List.flatMap_cons]
    · rw [if_neg hr, if_neg fun h => hr (h r List.mem_cons_self)]
      rfl

/-- The text has the rows of the records, as long as the sums have room. -/
theorem toCsv_eq (records : List ExportRecord) :
    toCsv records =
      if ∀ r ∈ records, r.piiTotal < 2 ^ 32 then
        .ok (Csv.render needsQuotes (csvHeader :: records.map ExportRecord.columns))
      else .panic := by
  rw [toCsv, pushRecords_eq, writeRow_eq, List.nil_append]
  rfl

theorem needsQuotes_iff {f : Text} : needsQuotes f = true ↔ ',' ∈ f ∨ '"' ∈ f ∨ '\n' ∈ f := by
  simp [needsQuotes, or_assoc]

theorem not_special {f : Text} (h : needsQuotes f = false) : ',' ∉ f ∧ '"' ∉ f ∧ '\n' ∉ f := by
  simpa [needsQuotes, and_assoc] using h

/-- A number has no carriage return in it. -/
theorem cr_notMem_nat (n : ℕ) : '\r' ∉ (toString n).toList := by
  intro h
  rw [show toString n = Nat.repr n from rfl, Nat.toList_repr] at h
  exact absurd (Nat.isDigit_of_mem_toDigits (by decide) (by decide) h) (by decide)

theorem cr_notMem_int (n : ℤ) : '\r' ∉ (toString n).toList := by
  cases n with
  | ofNat n => exact cr_notMem_nat n
  | negSucc n =>
    change '\r' ∉ ("-" ++ Nat.repr (n + 1)).toList
    rw [String.toList_append]
    exact fun h => (List.mem_append.mp h).elim (by decide) (cr_notMem_nat (n + 1))

/-- Of the columns only the texts may have one. -/
theorem columns_safe_iff (r : ExportRecord) :
    (∀ f ∈ r.columns, needsQuotes f = true ∨ '\r' ∉ f) ↔
      ∀ f ∈ r.texts, '\r' ∈ f → ',' ∈ f ∨ '"' ∈ f ∨ '\n' ∈ f := by
  simp only [ExportRecord.columns, ExportRecord.texts, List.forall_mem_cons, cr_notMem_int,
    cr_notMem_nat, needsQuotes_iff, or_iff_not_imp_right, not_not, IsEmpty.forall_iff,
    true_and]

/-- **When the text is read back.** -/
theorem csv_roundTrip_iff (records : List ExportRecord) :
    CsvReadBack records ↔
      ∀ r ∈ records, r.piiTotal < 2 ^ 32 ∧
        ∀ f ∈ r.texts, '\r' ∈ f → ',' ∈ f ∨ '"' ∈ f ∨ '\n' ∈ f := by
  have hne : ∀ row ∈ csvHeader :: records.map ExportRecord.columns, row ≠ [] := by
    refine List.forall_mem_cons.mpr ⟨List.cons_ne_nil _ _, fun row hrow => ?_⟩
    obtain ⟨r, -, rfl⟩ := List.mem_map.mp hrow
    exact List.cons_ne_nil _ _
  have hread := Csv.read_render_iff (fun _ => not_special) hne
  have hheader : ∀ f ∈ csvHeader, needsQuotes f = true ∨ '\r' ∉ f := by decide
  rw [List.forall_mem_cons, and_iff_right hheader, List.forall_mem_map] at hread
  rw [CsvReadBack, toCsv_eq]
  by_cases hsum : ∀ r ∈ records, r.piiTotal < 2 ^ 32
  · rw [if_pos hsum]
    refine ⟨fun ⟨t, ht, hback⟩ r hr => ?_, fun h => ⟨_, rfl, hread.mpr fun r hr => ?_⟩⟩
    · obtain rfl := Outcome.ok.inj ht
      exact ⟨hsum r hr, (columns_safe_iff r).mp (hread.mp hback r hr)⟩
    · exact (columns_safe_iff r).mpr (h r hr).2
  · rw [if_neg hsum]
    exact iff_of_false (fun ⟨_, ht, _⟩ => by cases ht) fun h => hsum fun r hr => (h r hr).1

/-- A text that ends with a carriage return. -/
def crRecord : ExportRecord := ⟨['1'], ['a'], 0, ['x', '\r'], [], none⟩

/-- A text with a carriage return in a field. -/
def crText : Text :=
  "doc_id,agent,ts,pii_types,pii_total,content_masked\n1,a,0,,0,x\r\n".toList

/-- The carriage return is lost. -/
theorem crRecord_truncated :
    toCsv [crRecord] = .ok crText ∧
      Csv.read crText = some [csvHeader, [['1'], ['a'], ['0'], [], ['0'], ['x']]] ∧
      ¬CsvReadBack [crRecord] := by
  have htext : toCsv [crRecord] = .ok crText := by decide +kernel
  have hread : Csv.read crText = some [csvHeader, [['1'], ['a'], ['0'], [], ['0'], ['x']]] := by
    decide +kernel
  refine ⟨htext, hread, ?_⟩
  rintro ⟨t, ht, hback⟩
  obtain rfl := Outcome.ok.inj (htext.symm.trans ht)
  have hsame := Option.some.inj (hread.symm.trans hback)
  exact absurd hsame (by decide +kernel)

end SynapseMemory.Compliance
