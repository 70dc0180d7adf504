import Mathlib

/-!
# Text: the string operations the crates use

A `&str` is modelled by its list of characters. The operations below follow the
documented behaviour of the standard library, each under its own name:
`lines`, `trim`, `split_whitespace`, `max_by_key` and so on. Byte lengths are
UTF-8 lengths, since `str::len` counts bytes.

The one table too large to write down is the Unicode alphanumeric property. It
is the field of the class `Unicode`, pinned on ASCII and left open beyond it, so
everything proved here holds for any version of the tables.
-/

namespace SynapseMemory

/-- A string: its characters in order. -/
abbrev Text : Type := List Char

/-- The Unicode property tables the code consults through `char`. -/
class Unicode where
  /-- `char::is_alphanumeric` -/
  isAlphanumeric : Char → Bool
  /-- on ASCII it is letters and digits -/
  ascii : ∀ c : Char, c.val < 128 → isAlphanumeric c = c.isAlphanum

/-- The smallest tables: nothing beyond ASCII is alphanumeric. -/
@[reducible] def Unicode.asciiOnly : Unicode where
  isAlphanumeric := Char.isAlphanum
  ascii _ _ := rfl

namespace Text

/-- `char::is_whitespace`: the `White_Space` property. -/
def isWhitespace (c : Char) : Bool :=
  let n := c.toNat
  (9 ≤ n && n ≤ 13) || n == 0x20 || n == 0x85 || n == 0xA0 || n == 0x1680 ||
    (0x2000 ≤ n && n ≤ 0x200A) || n == 0x2028 || n == 0x2029 || n == 0x202F ||
    n == 0x205F || n == 0x3000

/-- `str::len`: the number of UTF-8 bytes. -/
def len (t : Text) : ℕ := (t.map Char.utf8Size).sum

/-- `str::as_bytes`. -/
def asBytes (t : Text) : List UInt8 := t.flatMap String.utf8EncodeChar

/-- `str::to_ascii_lowercase`. -/
def toAsciiLowercase (t : Text) : Text := t.map Char.toLower

/-- `str::to_ascii_uppercase` -/
def toAsciiUppercase (t : Text) : Text := t.map Char.toUpper

/-- `str::trim`: drop white space at both ends. -/
def trim (t : Text) : Text := (t.dropWhile isWhitespace).rdropWhile isWhitespace

/-- `str::split_whitespace`: the maximal white-space-free pieces. -/
def splitWhitespace (t : Text) : List Text :=
  (t.splitOnP isWhitespace).filter fun w => !w.isEmpty

/-- Drop one trailing carriage return, as `lines` does before a newline. -/
def stripCr (line : Text) : Text :=
  if line.getLast? = some '\r' then line.dropLast else line

/-- `str::lines`: newline-terminated pieces lose the newline and a carriage
return before it; an unterminated last piece is a line unless it is empty. -/
def lines (t : Text) : List Text :=
  let pieces := t.splitOnP (· == '\n')
  pieces.dropLast.map stripCr ++ pieces.getLast?.toList.filter fun l => !l.isEmpty

/-- `str::contains` with a string pattern. -/
def containsStr (t pat : Text) : Bool := decide (pat <:+: t)

/-- `str::matches(pat).count()`. None of the patterns counted in the crates
overlaps itself, so counting start positions is counting matches. -/
def countMatches (t pat : Text) : ℕ := t.tails.countP pat.isPrefixOf

/-- `[T]::join("\n")`. -/
def joinLines (ls : List Text) : Text := ['\n'].intercalate ls

/-- `Iterator::max_by_key`: the last of the elements with the greatest key. -/
def maxByKey {α : Type} (key : α → ℕ) (l : List α) : Option α :=
  l.foldl (fun best x =>
    match best with
    | none => some x
    | some b => if key b ≤ key x then some x else some b) none

end Text

end SynapseMemory
