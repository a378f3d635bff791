import Entitle.Json.Range
import Entitle.Json.Value

/-!
# Reading JSON text

A text is one value with blanks around it. Reading goes from left to right; every function returns
the text that is left.

## Main definitions

* `Json.readString`, `Json.readNumber`: the literals.
* `Json.read?`: the value of a whole text, if it is well-formed.

## Implementation notes

The bound on the nesting of calls counts down from twice the length of the text, which no text can
use up, since every second call takes a character.
-/
namespace Entitle.Json

/-- Space, tab, line feed and carriage return are the blanks of JSON. -/
def isBlank (c : Char) : Bool :=
  c == ' ' || c == '\t' || c == '\n' || c == '\r'

/-- The text from the first character that is not blank. -/
def skipBlanks (cs : List Char) : List Char :=
  cs.dropWhile isBlank

/-! ## Strings -/

/-- The value of a hexadecimal digit of either case. -/
def hexValue? (c : Char) : Option Nat :=
  if '0' ≤ c ∧ c ≤ '9' then some (c.toNat - '0'.toNat)
  else if 'a' ≤ c ∧ c ≤ 'f' then some (c.toNat - 'a'.toNat + 10)
  else if 'A' ≤ c ∧ c ≤ 'F' then some (c.toNat - 'A'.toNat + 10)
  else none

/-- The number that four hexadecimal digits write. -/
def hexQuad? (a b c d : Char) : Option Nat := do
  return (((← hexValue? a) * 16 + (← hexValue? b)) * 16 + (← hexValue? c)) * 16 + (← hexValue? d)

/-- The character that a one-letter escape stands for. -/
def simpleEscape? (c : Char) : Option Char :=
  if c = '"' then some '"'
  else if c = '\\' then some '\\'
  else if c = '/' then some '/'
  else if c = 'b' then some '\x08'
  else if c = 'f' then some '\x0c'
  else if c = 'n' then some '\n'
  else if c = 'r' then some '\r'
  else if c = 't' then some '\t'
  else none

/-- What a string literal is made of: characters, and the code units of hexadecimal escapes. -/
inductive StringPart where
  | char (c : Char)
  | unit (n : Nat)

/-- The parts of a string after its opening quote, and what follows its closing quote. -/
def readParts : List Char → Option (List StringPart × List Char)
  | [] => none
  | '"' :: rest => some ([], rest)
  | '\\' :: 'u' :: a :: b :: c :: d :: rest =>
    match hexQuad? a b c d with
    | none => none
    | some n => (readParts rest).map fun (parts, left) => (.unit n :: parts, left)
  | '\\' :: e :: rest =>
    match simpleEscape? e with
    | none => none
    | some c => (readParts rest).map fun (parts, left) => (.char c :: parts, left)
  | c :: rest =>
    if c.toNat < 0x20 ∨ c = '\\' then none
    else (readParts rest).map fun (parts, left) => (.char c :: parts, left)

/-- The text of the parts: a high surrogate and a low one are one character, and a surrogate
without its partner denotes none. -/
def textOfParts : List StringPart → Option (List Char)
  | [] => some []
  | .char c :: rest => (textOfParts rest).map (c :: ·)
  | .unit n :: .unit m :: rest =>
    if 0xD800 ≤ n ∧ n ≤ 0xDBFF then
      if 0xDC00 ≤ m ∧ m ≤ 0xDFFF then
        (textOfParts rest).map (Char.ofNat (0x10000 + (n - 0xD800) * 0x400 + (m - 0xDC00)) :: ·)
      else none
    else if 0xDC00 ≤ n ∧ n ≤ 0xDFFF then none
    else (textOfParts (.unit m :: rest)).map (Char.ofNat n :: ·)
  | .unit n :: rest =>
    if 0xD800 ≤ n ∧ n ≤ 0xDFFF then none else (textOfParts rest).map (Char.ofNat n :: ·)

/-- The text of a string after its opening quote, if it has one, and what follows the string. -/
def readString (cs : List Char) : Option (Option (List Char) × List Char) :=
  (readParts cs).map fun (parts, left) => (textOfParts parts, left)

/-! ## Numbers -/

/-- The digits at the start of a text and the rest. -/
def digits (cs : List Char) : List Char × List Char :=
  (cs.takeWhile Char.isDigit, cs.dropWhile Char.isDigit)

/-- The exponent part of a numeral: its text, its value and what is left; none of them if there is
no exponent. -/
def readExponent (cs : List Char) : Option (List Char × Int × List Char) :=
  match cs with
  | [] => some ([], 0, [])
  | e :: rest =>
    if e = 'e' ∨ e = 'E' then
      let (sign, rest) := match rest with
        | s :: more => if s = '+' ∨ s = '-' then ([s], more) else ([], rest)
        | [] => ([], [])
      let (ds, left) := digits rest
      if ds.isEmpty then none
      else
        let n : Int := natOfDigits ds
        some (e :: sign ++ ds, if sign = ['-'] then -n else n, left)
    else some ([], 0, cs)

/-- A number: a sign, an integer part without leading zeros, a fraction and an exponent. -/
def readNumber (cs : List Char) : Option (Json × List Char) :=
  let (sign, unsigned) := match cs with
    | '-' :: rest => (['-'], rest)
    | _ => ([], cs)
  let (whole, afterWhole) := digits unsigned
  if whole.isEmpty ∨ (whole.head? = some '0' ∧ whole ≠ ['0']) then none
  else
    let (fraction, afterFraction) := match afterWhole with
      | '.' :: rest => let (ds, left) := digits rest; (some ds, left)
      | _ => (none, afterWhole)
    if fraction = some [] then none
    else
      match readExponent afterFraction with
      | none => none
      | some (exponentText, exponent, left) =>
        let value :=
          if (Scaled.ofDigits whole (fraction.getD []) exponent).overflows then .unreadable
          else if sign.isEmpty ∧ fraction.isNone ∧ exponentText.isEmpty then
            .nat (natOfDigits whole)
          else .numeral (String.ofList
            (sign ++ whole ++ (match fraction with | some ds => '.' :: ds | none => [])
              ++ exponentText))
        some (value, left)

/-! ## Values -/

/-- An object of the members that were read, unless one of the keys denotes no text. -/
def objOfKeys (members : List (Option String × Json)) : Json :=
  match members.mapM fun (k, j) => k.map (·, j) with
  | some ms => .obj ms
  | none => .unreadable

mutual

/-- The value that a text without blanks before it begins with. -/
def readValue : Nat → List Char → Option (Json × List Char)
  | 0, _ => none
  | bound + 1, cs =>
    match cs with
    | '\x7b' :: rest =>
      match skipBlanks rest with
      | '\x7d' :: left => some (.obj [], left)
      | more => (readMembers bound more).map fun (members, left) => (objOfKeys members, left)
    | '[' :: rest =>
      match skipBlanks rest with
      | ']' :: left => some (.arr [], left)
      | more => (readItems bound more).map fun (items, left) => (.arr items, left)
    | '"' :: rest =>
      (readString rest).map fun (text, left) =>
        (match text with | some cs => .str (String.ofList cs) | none => .unreadable, left)
    | 't' :: 'r' :: 'u' :: 'e' :: left => some (.bool true, left)
    | 'f' :: 'a' :: 'l' :: 's' :: 'e' :: left => some (.bool false, left)
    | 'n' :: 'u' :: 'l' :: 'l' :: left => some (.null, left)
    | _ => readNumber cs

/-- Items up to the closing bracket. -/
def readItems : Nat → List Char → Option (List Json × List Char)
  | 0, _ => none
  | bound + 1, cs =>
    match readValue bound cs with
    | none => none
    | some (j, rest) =>
      match skipBlanks rest with
      | ']' :: left => some ([j], left)
      | ',' :: more =>
        (readItems bound (skipBlanks more)).map fun (items, left) => (j :: items, left)
      | _ => none

/-- Members up to the closing brace. -/
def readMembers : Nat → List Char → Option (List (Option String × Json) × List Char)
  | 0, _ => none
  | bound + 1, cs =>
    match cs with
    | '"' :: afterQuote =>
      match readString afterQuote with
      | none => none
      | some (key, afterKey) =>
        match skipBlanks afterKey with
        | ':' :: afterColon =>
          match readValue bound (skipBlanks afterColon) with
          | none => none
          | some (j, rest) =>
            let member := (key.map String.ofList, j)
            match skipBlanks rest with
            | '\x7d' :: left => some ([member], left)
            | ',' :: more =>
              (readMembers bound (skipBlanks more)).map fun (members, left) =>
                (member :: members, left)
            | _ => none
        | _ => none
    | _ => none

end

/-- The value of a text that holds one value and blanks. -/
def read? (text : String) : Option Json :=
  let cs := skipBlanks text.toList
  match readValue (2 * cs.length + 2) cs with
  | some (j, rest) => if (skipBlanks rest).isEmpty then some j else none
  | none => none

end Entitle.Json
