import Entitle.Json.Value

/-!
# Printed JSON

Two written forms of a value: compact, with nothing between the tokens, and indented by two
spaces for each level. Characters beyond ASCII stand for themselves.

## Main definitions

* `Json.quote`: a string literal.
* `Json.compact`, `Json.pretty`: the two forms.
-/
namespace Entitle.Json

/-! ## String literals -/

/-- A control character has a short escape or four hexadecimal digits; the quote and the backslash
are escaped, every other character stands for itself. -/
def escape (c : Char) : List Char :=
  if c = '"' then ['\\', '"']
  else if c = '\\' then ['\\', '\\']
  else if c = '\n' then ['\\', 'n']
  else if c = '\r' then ['\\', 'r']
  else if c = '\t' then ['\\', 't']
  else if c = '\x08' then ['\\', 'b']
  else if c = '\x0c' then ['\\', 'f']
  else if c.toNat < 0x20 then
    ['\\', 'u', '0', '0', Nat.digitChar (c.toNat / 16), Nat.digitChar (c.toNat % 16)]
  else [c]

/-- A string literal with its quotes. -/
def quote (s : String) : String :=
  String.ofList ('"' :: (s.toList.flatMap escape ++ ['"']))

/-! ## Compact form -/

mutual

/-- The value without any blank between its tokens. -/
def compact : Json → String
  | .null => "null"
  | .bool b => if b then "true" else "false"
  | .nat n => toString n
  | .numeral text => text
  | .str s => quote s
  | .arr items => "[" ++ compactItems items ++ "]"
  | .obj members => "\x7b" ++ compactMembers members ++ "\x7d"
  | .unreadable => "null"

/-- Items with commas between them. -/
def compactItems : List Json → String
  | [] => ""
  | [j] => j.compact
  | j :: rest => j.compact ++ "," ++ compactItems rest

/-- Members with commas between them. -/
def compactMembers : List (String × Json) → String
  | [] => ""
  | [(k, j)] => quote k ++ ":" ++ j.compact
  | (k, j) :: rest => quote k ++ ":" ++ j.compact ++ "," ++ compactMembers rest

end

/-! ## Indented form -/

/-- The start of a line at a level of nesting. -/
def newline (level : Nat) : String :=
  String.ofList ('\n' :: List.replicate (2 * level) ' ')

mutual

/-- The value at a level of nesting, each item and each member on a line of its own. -/
def prettyAt (level : Nat) : Json → String
  | .arr [] => "[]"
  | .arr items => "[" ++ prettyItems (level + 1) items ++ newline level ++ "]"
  | .obj [] => "\x7b\x7d"
  | .obj members => "\x7b" ++ prettyMembers (level + 1) members ++ newline level ++ "\x7d"
  | .null => "null"
  | .bool b => if b then "true" else "false"
  | .nat n => toString n
  | .numeral text => text
  | .str s => quote s
  | .unreadable => "null"

/-- Items on their lines. -/
def prettyItems (level : Nat) : List Json → String
  | [] => ""
  | [j] => newline level ++ prettyAt level j
  | j :: rest => newline level ++ prettyAt level j ++ "," ++ prettyItems level rest

/-- Members on their lines. -/
def prettyMembers (level : Nat) : List (String × Json) → String
  | [] => ""
  | [(k, j)] => newline level ++ quote k ++ ": " ++ prettyAt level j
  | (k, j) :: rest =>
    newline level ++ quote k ++ ": " ++ prettyAt level j ++ "," ++ prettyMembers level rest

end

/-- The indented form. -/
def pretty (j : Json) : String :=
  j.prettyAt 0

example : (obj [("a", arr [nat 1, str "\t"]), ("b", obj [])]).compact
    = "\x7b\"a\":[1,\"\\t\"],\"b\":\x7b\x7d\x7d" := by decide +kernel

end Entitle.Json
