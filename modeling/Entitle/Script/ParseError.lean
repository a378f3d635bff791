import Entitle.Script.Token

/-!
# Errors of script text

What can be wrong with the text of a script before its meaning is looked at: a character or a
literal that is no token, or a token that no statement allows at its place.

## Main definitions

* `ParseError.Cause`: the rule that is broken.
* `ParseError`: a cause and the place of the offending token.
* `ParseError.message`: the wording, with `ParseError.describe` for the whole line.
-/
namespace Entitle

/-- The rule that a text breaks. `got` is the token in the place of the expected one. -/
inductive ParseError.Cause where
  | unterminatedString
  | unterminatedEscape
  | unexpectedCharacter (c : Char)
  | expectedKeyword (keyword : String) (got : Token)
  | expectedToken (token : Token) (got : Token)
  | expectedEnd (got : Token)
  | expectedIdentifier (got : Token)
  | expectedQuoted (what : String) (got : Token)
  | expectedStatement (got : Token)
  | expectedKindAfterCreate (got : Token)
  | expectedKind (got : Token)
  | expectedPrivilege (got : Token)
  | expectedRestriction (got : Token)
  | expectedTruth (got : Token)
  | expectedCheck (got : Token)
  | unknownKeyword (word : String)
  | strayBrace
  | unclosedBlock
  deriving DecidableEq, Repr

/-- A broken rule and where it is broken. -/
structure ParseError where
  origin : Origin
  cause : ParseError.Cause
  deriving DecidableEq, Repr

namespace ParseError

/-- The wording of a cause. -/
def Cause.message : Cause → String
  | unterminatedString => "unterminated string literal"
  | unterminatedEscape => "unterminated escape in string"
  | unexpectedCharacter c => "unexpected character '" ++ c.toString ++ "'"
  | expectedKeyword keyword got => "expected '" ++ keyword ++ "', got " ++ got.describe
  | expectedToken token got => "expected " ++ token.describe ++ ", got " ++ got.describe
  | expectedEnd got => "expected ';' to end statement, got " ++ got.describe
  | expectedIdentifier got => "expected identifier, got " ++ got.describe
  | expectedQuoted what got => "expected quoted " ++ what ++ ", got " ++ got.describe
  | expectedStatement got => "expected statement keyword, got " ++ got.describe
  | expectedKindAfterCreate got =>
    "expected 'user' or 'group' after 'create', got " ++ got.describe
  | expectedKind got => "expected 'user' or 'group', got " ++ got.describe
  | expectedPrivilege got => "expected privilege name, got " ++ got.describe
  | expectedRestriction got => "expected restriction name, got " ++ got.describe
  | expectedTruth got => "expected 'true' or 'false', got " ++ got.describe
  | expectedCheck got =>
    "expected 'exists', 'not exists', 'allow' or 'deny' after 'check', got " ++ got.describe
  | unknownKeyword word => "unknown keyword '" ++ word ++ "'"
  | strayBrace => "unexpected '\x7d' without matching '\x7b'"
  | unclosedBlock => "unterminated block: missing '\x7d'"

/-- The wording of an error. -/
def message (e : ParseError) : String :=
  e.cause.message

/-- The place and the wording in one line. -/
def describe (e : ParseError) : String :=
  e.origin.describe ++ ": " ++ e.message

end ParseError

end Entitle
