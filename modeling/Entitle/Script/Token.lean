import Entitle.Script.Origin
import Entitle.Text.CharClass

/-!
# Tokens

A script is read as words, quoted strings and five punctuation marks. Blanks and comments, from a
number sign to the end of the line, separate tokens and are no tokens themselves.

## Main definitions

* `Token`, `Lexeme`: a token, and a token with its position.
* `Token.describe`: a token as a message shows it.
* `isWordStart`, `isWordChar`: the characters of words.
-/
namespace Entitle

/-- A word, a string with its escapes resolved, a mark, or the end of the script. -/
inductive Token where
  | word (text : String)
  | str (text : String)
  | semi
  | comma
  | eq
  | lbrace
  | rbrace
  | eof
  deriving DecidableEq, Repr, Inhabited

/-- A token and the position of its first character. -/
structure Lexeme where
  token : Token
  position : Position
  deriving DecidableEq, Repr, Inhabited

namespace Token

/-- A token as a message shows it. -/
def describe : Token → String
  | word text => "'" ++ text ++ "'"
  | str text => "string \"" ++ text ++ "\""
  | semi => "';'"
  | comma => "','"
  | eq => "'='"
  | lbrace => "'\x7b'"
  | rbrace => "'\x7d'"
  | eof => "end of input"

/-- The mark that a character is. -/
def punctuation? (c : Char) : Option Token :=
  if c = ';' then some semi
  else if c = ',' then some comma
  else if c = '=' then some eq
  else if c = '\x7b' then some lbrace
  else if c = '\x7d' then some rbrace
  else none

end Token

/-- A word begins with a letter or an underscore. -/
def isWordStart (c : Char) : Bool :=
  Text.isAlphabetic c || c == '_'

/-- A word goes on with letters, numbers and the four characters of qualified names. -/
def isWordChar (c : Char) : Bool :=
  Text.isAlphanumeric c || c == '_' || c == ':' || c == '.' || c == '-'

/-- Every first character of a word may also stand inside one. -/
theorem isWordChar_of_isWordStart {c : Char} (h : isWordStart c = true) : isWordChar c = true := by
  simp only [isWordStart, isWordChar, Text.isAlphanumeric, Bool.or_eq_true] at h ⊢
  rcases h with h | h <;> simp [h]

end Entitle
