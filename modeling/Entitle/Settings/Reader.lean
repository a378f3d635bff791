import Entitle.Host.Request
import Entitle.Settings.Literal

/-!
# Settings files

A settings file has one entry on a line, a key and its value with an equals sign between them.
Blanks, blank lines and comments may stand around them.

## Main definitions

* `readEntry`, `readEntries`: the entries of a text.
* `ofText?`: the settings that a text makes.
* `SettingsError`: why there are no settings.
* `load`: the settings that a file makes.
-/
namespace Entitle

/-- Why there are no settings. -/
inductive SettingsError where
  | unreadable (file : String) (error : FileError)
  | invalid (file : String)
  deriving DecidableEq, Repr

/-- The wording of an error. -/
def SettingsError.message : SettingsError → String
  | unreadable file error => s!"error reading config '{file}': {error.message}"
  | invalid file => s!"invalid config '{file}': not a settings file"

namespace Settings

/-! ## Lines -/

/-- The text after a comment, if it starts with one: the end of the line, or the first character
that cannot stand in a comment. -/
def skipComment : List Char → List Char
  | '#' :: rest => rest.dropWhile (!isForbidden ·)
  | cs => cs

/-- The text after a line on which nothing of meaning is left. -/
def endLine? (cs : List Char) : Option (List Char) :=
  match skipComment (skipSpaces cs) with
  | [] => some []
  | rest => breakLine? rest

/-- Keys without quotes consist of these characters. -/
def isBare (c : Char) : Bool :=
  c.isAlphanum || c == '_' || c == '-'

/-- A key, with or without quotes, and what follows it. -/
def readKey : List Char → Option (List Char × List Char)
  | '"' :: rest => readQuoted rest
  | '\x27' :: rest => readPlain rest
  | cs =>
    match cs.takeWhile isBare with
    | [] => none
    | key => some (key, cs.dropWhile isBare)

/-- An entry and the lines after it. -/
def readEntry (cs : List Char) : Option ((String × SettingValue) × List Char) := do
  let (key, afterKey) ← readKey cs
  match skipSpaces afterKey with
  | '=' :: rest =>
    let (value, left) ← readValue (skipSpaces rest)
    return ((String.ofList key, value), ← endLine? left)
  | _ => none

/-- The entries of a text of at most `bound` lines. -/
def readEntries : (bound : Nat) → List Char → Option (List (String × SettingValue))
  | _, [] => some []
  | 0, _ => none
  | bound + 1, cs =>
    match endLine? cs with
    | some rest => readEntries bound rest
    | none =>
      match readEntry (skipSpaces cs) with
      | some (entry, rest) => (readEntries bound rest).map (entry :: ·)
      | none => none

/-- The text without the mark that may stand at the start of a file. -/
def skipMark : List Char → List Char
  | '\ufeff' :: rest => rest
  | cs => cs

/-- The settings that a text makes of others. There are no more lines than characters. -/
def ofText? (s : Settings) (text : String) : Option Settings := do
  let cs := skipMark text.toList
  s.assignAll? (← readEntries cs.length cs)

/-! ## Files -/

/-- The settings file that need not be there. -/
def defaultFile : String := "warden.toml"

/-- The settings of a file that is asked for, or else of the usual file, if there is one. -/
def load (file : Option String) (principal : String) : Hosted (Except SettingsError Settings) := do
  let name := file.getD defaultFile
  let fresh := initial principal
  match ← Host.readText name with
  | .ok text =>
    match fresh.ofText? text with
    | some s => pure (.ok s)
    | none => pure (.error (.invalid name))
  | .error e =>
    if file.isNone && e.isMissing then pure (.ok fresh) else pure (.error (.unreadable name e))

end Settings

end Entitle
