import Entitle.Text.CharClass

/-!
# Texts as they are shown

Texts in columns are filled up with blanks; a text that is too wide is left as it is. A message
shows a single character or a text between quotes so that nothing in it is invisible: blanks other
than the space and control characters are written as escapes.

## Main definitions

* `padRight`, `padLeft`: a text filled up on its right or its left.
* `leading`: the longest start of a text that takes no more than a number of bytes.
* `escaped`: the escape of one character, or the character itself.
* `quotedChar`, `quoted`: a character between single quotes, a text between double quotes.

## Main statements

* `length_padRight`, `length_padLeft`: the width of the column, or of the text if it is wider.
-/
namespace Entitle.Text

/-! ## Columns -/

/-- As many blanks as a text lacks to fill a column. -/
def padding (width : Nat) (s : String) : String :=
  String.ofList (List.replicate (width - s.length) ' ')

/-- A text filled up on its right. -/
def padRight (width : Nat) (s : String) : String :=
  s ++ padding width s

/-- A text filled up on its left. -/
def padLeft (width : Nat) (s : String) : String :=
  padding width s ++ s

theorem length_padRight (width : Nat) (s : String) :
    (padRight width s).length = max width s.length := by
  simp only [padRight, padding, String.length_append, String.length_ofList, List.length_replicate]
  omega

theorem length_padLeft (width : Nat) (s : String) :
    (padLeft width s).length = max width s.length := by
  simp only [padLeft, padding, String.length_append, String.length_ofList, List.length_replicate]
  omega

/-- The longest start of a text that takes no more than a number of bytes. -/
def leadingChars : (bytes : Nat) → List Char → List Char
  | _, [] => []
  | bytes, c :: rest =>
    if c.utf8Size ≤ bytes then c :: leadingChars (bytes - c.utf8Size) rest else []

/-- The longest start of a text that takes no more than a number of bytes. -/
def leading (bytes : Nat) (s : String) : String :=
  String.ofList (leadingChars bytes s.toList)

/-- Lines, each with its line feed. -/
def unlines (ls : List String) : String :=
  String.join (ls.map (· ++ "\n"))

/-! ## Quotes -/

/-- The code point in lowercase hexadecimal digits, as in U+A0. -/
def codePointEscape (c : Char) : String :=
  "\\u\x7b" ++ String.ofList (Nat.toDigits 16 c.toNat) ++ "\x7d"

/-- The escape of a character that a reader could not see, the backslash and the enclosing quote
included. -/
def escaped (quote : Char) (c : Char) : String :=
  if c = '\x00' then "\\0"
  else if c = '\t' then "\\t"
  else if c = '\n' then "\\n"
  else if c = '\r' then "\\r"
  else if c = '\\' then "\\\\"
  else if c = quote then "\\" ++ quote.toString
  else if isControl c || (isBlank c && c != ' ') then codePointEscape c
  else c.toString

/-- A character between single quotes. -/
def quotedChar (c : Char) : String :=
  "'" ++ escaped '\'' c ++ "'"

/-- A text between double quotes. -/
def quoted (s : String) : String :=
  "\"" ++ String.join (s.toList.map (escaped '"')) ++ "\""

example : quotedChar '\u00a0' = "'\\u\x7ba0\x7d'" := by decide +kernel
example : quotedChar '"' = "'\"'" ∧ quotedChar '\'' = "'\\''" := by decide +kernel
example : quoted "a\"\n" = "\"a\\\"\\n\"" := by decide +kernel

end Entitle.Text
