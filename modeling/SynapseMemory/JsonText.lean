import SynapseMemory.Proto
import SynapseMemory.Text

/-!
# The text of a JSON value

`Value::to_string` of `serde_json`: no blanks, the fields in their order, and in strings only the
characters escaped that must be. How a float is printed is a parameter.

A value is always on one line, and an object begins and ends with its braces, which is what the
line-based formats rest on.
-/

namespace SynapseMemory

/-- The shortest decimal form of a float. -/
class FloatText where
  text : F64 → Text
  newline_not_mem : ∀ x, '\n' ∉ text x

/-- Every float as zero. -/
@[reducible] def FloatText.zero : FloatText := ⟨fun _ => ['0', '.', '0'], fun _ => by decide⟩

namespace Json

/-- The double quote. -/
def quote : Char := Char.ofNat 34

/-- The backslash. -/
def backslash : Char := Char.ofNat 92

/-- The brace that an object begins with. -/
def leftBrace : Char := Char.ofNat 123

/-- The brace that an object ends with. -/
def rightBrace : Char := Char.ofNat 125

/-- A lower-case hexadecimal digit. -/
def hexDigit (n : ℕ) : Char := if n < 10 then Char.ofNat (48 + n) else Char.ofNat (87 + n)

/-- A character of a string, as it is written. -/
def escapeChar (c : Char) : Text :=
  if c = quote then [backslash, quote]
  else if c = backslash then [backslash, backslash]
  else if c = Char.ofNat 8 then [backslash, 'b']
  else if c = Char.ofNat 12 then [backslash, 'f']
  else if c = '\n' then [backslash, 'n']
  else if c = '\r' then [backslash, 'r']
  else if c = '\t' then [backslash, 't']
  else if c.toNat < 32 then
    [backslash, 'u', '0', '0', hexDigit (c.toNat / 16), hexDigit (c.toNat % 16)]
  else [c]

/-- A string, as it is written. -/
def renderStr (s : String) : Text := quote :: s.toList.flatMap escapeChar ++ [quote]

section Render

variable [FloatText]

mutual

/-- `to_string`, without blanks between the tokens. -/
def render : Json → Text
  | .null => "null".toList
  | .bool b => if b then "true".toList else "false".toList
  | .int n => (toString n).toList
  | .real x => FloatText.text x
  | .str s => renderStr s
  | .arr items => '[' :: renderItems items ++ [']']
  | .obj fields => leftBrace :: renderFields fields ++ [rightBrace]

/-- The elements of an array, with commas between them. -/
def renderItems : List Json → Text
  | [] => []
  | [v] => render v
  | v :: rest => render v ++ ',' :: renderItems rest

/-- The fields of an object, with commas between them. -/
def renderFields : List (String × Json) → Text
  | [] => []
  | [f] => renderField f
  | f :: rest => renderField f ++ ',' :: renderFields rest

/-- A key and its value. -/
def renderField : String × Json → Text
  | (key, v) => renderStr key ++ ':' :: render v

end

end Render

/-- The text of an object has the text of each of its fields in it. -/
theorem exists_append_renderField [FloatText] {fields : List (String × Json)} {f : String × Json}
    (h : f ∈ fields) : ∃ before rest, renderFields fields = before ++ (renderField f ++ rest) := by
  induction fields with
  | nil => cases h
  | cons g more ih =>
    cases more with
    | nil =>
      obtain rfl := List.mem_singleton.mp h
      exact ⟨[], [], by simp [renderFields]⟩
    | cons g' more =>
      rcases List.mem_cons.mp h with rfl | h
      · exact ⟨[], ',' :: renderFields (g' :: more), by simp [renderFields]⟩
      · obtain ⟨before, rest, heq⟩ := ih h
        refine ⟨renderField g ++ ',' :: before, rest, ?_⟩
        simp only [renderFields, heq, List.append_assoc, List.cons_append]

/-! ## One line -/

/-- An escaped character is no line feed. -/
theorem newline_not_mem_escapeChar (c : Char) : '\n' ∉ escapeChar c := by
  rw [escapeChar]
  split_ifs with h1 h2 h3 h4 h5 h6 h7 h8
  · decide
  · decide
  · decide
  · decide
  · decide
  · decide
  · decide
  · -- both digits are among the sixteen
    have hdigit : ∀ n, n < 16 → '\n' ≠ hexDigit n := by decide
    have hhigh : c.toNat / 16 < 16 := by omega
    have hlow : c.toNat % 16 < 16 := by omega
    simp only [List.mem_cons, List.not_mem_nil, or_false, not_or]
    exact ⟨by decide, by decide, by decide, by decide, hdigit _ hhigh, hdigit _ hlow⟩
  · rw [List.mem_singleton]
    exact fun h => h5 h.symm

/-- A rendered string has no line feed. -/
theorem newline_not_mem_renderStr (s : String) : '\n' ∉ renderStr s := by
  simp only [renderStr, List.cons_append, List.mem_cons, List.mem_append, List.mem_flatMap,
    List.not_mem_nil, or_false, not_or]
  refine ⟨by decide, ?_, by decide⟩
  rintro ⟨c, -, hc⟩
  exact newline_not_mem_escapeChar c hc

theorem newline_not_mem_nat (n : ℕ) : '\n' ∉ n.repr.toList := by
  rw [Nat.toList_repr]
  intro h
  have := Nat.isDigit_of_mem_toDigits (by decide) (by decide) h
  revert this
  decide

/-- A number has no line feed. -/
theorem newline_not_mem_int (n : ℤ) : '\n' ∉ (toString n).toList := by
  cases n with
  | ofNat m => exact newline_not_mem_nat m
  | negSucc m =>
    change '\n' ∉ ("-" ++ (m + 1).repr).toList
    rw [String.toList_append, List.mem_append, not_or]
    exact ⟨by decide, newline_not_mem_nat (m + 1)⟩

variable [FloatText]

mutual

/-- A value is printed on one line. -/
theorem newline_not_mem_render : (v : Json) → '\n' ∉ render v
  | .null => by simp only [render]; decide
  | .bool b => by cases b <;> simp only [render] <;> decide
  | .int n => by
    simp only [render]
    exact newline_not_mem_int n
  | .real x => by
    simp only [render]
    exact FloatText.newline_not_mem x
  | .str s => by
    simp only [render]
    exact newline_not_mem_renderStr s
  | .arr items => by
    simp only [render, List.cons_append, List.mem_cons, List.mem_append, List.not_mem_nil,
      or_false, not_or]
    exact ⟨by decide, newline_not_mem_renderItems items, by decide⟩
  | .obj fields => by
    simp only [render, List.cons_append, List.mem_cons, List.mem_append, List.not_mem_nil,
      or_false, not_or]
    exact ⟨by decide, newline_not_mem_renderFields fields, by decide⟩

theorem newline_not_mem_renderItems : (items : List Json) → '\n' ∉ renderItems items
  | [] => List.not_mem_nil
  | [v] => by
    simp only [renderItems]
    exact newline_not_mem_render v
  | v :: w :: rest => by
    simp only [renderItems, List.mem_append, List.mem_cons, not_or]
    exact ⟨newline_not_mem_render v, by decide, newline_not_mem_renderItems (w :: rest)⟩

/-- The fields of an object have no line feed between them. -/
theorem newline_not_mem_renderFields :
    (fields : List (String × Json)) → '\n' ∉ renderFields fields
  | [] => List.not_mem_nil
  | [f] => by
    simp only [renderFields]
    exact newline_not_mem_renderField f
  | f :: g :: rest => by
    simp only [renderFields, List.mem_append, List.mem_cons, not_or]
    exact ⟨newline_not_mem_renderField f, by decide, newline_not_mem_renderFields (g :: rest)⟩

theorem newline_not_mem_renderField : (f : String × Json) → '\n' ∉ renderField f
  | (key, v) => by
    simp only [renderField, List.mem_append, List.mem_cons, not_or]
    exact ⟨newline_not_mem_renderStr key, by decide, newline_not_mem_render v⟩

end

end Json

end SynapseMemory
