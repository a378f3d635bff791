import Entitle.Script.Checked
import Entitle.Script.Grammar

/-!
# The cache of checked scripts

Parsing and checking a text gives the same result each time, so a checked script is kept under its
identity and checksum. The loader is asked for the text every time: an edited script has another
checksum and is checked anew, and a script that fails is never kept.

## Main definitions

* `ScriptError`: why the text of a script is refused.
* `Script.check`: parsing and checking.
* `Cache.check`: the same through a cache.

## Main statements

* `Cache.find?_add`: what adding a script does to the look-ups.
-/
namespace Entitle

/-- Why the text of a script is refused. -/
inductive ScriptError where
  | parse (error : ParseError)
  | semantic (errors : List SemanticError)
  deriving DecidableEq, Repr

/-- The checked script of a text. -/
def Script.check (script : Script) : Except ScriptError Checked :=
  match Grammar.parse script.identity script.source with
  | .error e => .error (.parse e)
  | .ok statements =>
    match Checked.ofScript script statements with
    | .error es => .error (.semantic es)
    | .ok checked => .ok checked

/-- Checked scripts, each with another identity or checksum. -/
structure Cache where
  scripts : List Checked

namespace Cache

/-- A cache without scripts. -/
def empty : Cache := ⟨[]⟩

instance : Inhabited Cache := ⟨empty⟩

/-- The number of scripts in the cache. -/
def size (c : Cache) : Nat :=
  c.scripts.length

/-- The checked script with an identity and a checksum. -/
def find? (c : Cache) (identity checksum : String) : Option Checked :=
  c.scripts.find? fun s => s.identity == identity && s.checksum == checksum

/-- The cache with one more script. -/
def add (c : Cache) (s : Checked) : Cache :=
  ⟨c.scripts ++ [s]⟩

theorem find?_add (c : Cache) (s : Checked) (identity checksum : String) :
    (c.add s).find? identity checksum =
      (c.find? identity checksum).or
        (if s.identity = identity ∧ s.checksum = checksum then some s else none) := by
  simp only [find?, add, List.find?_append]
  congr 1
  by_cases h : s.identity = identity ∧ s.checksum = checksum
  · simp [h]
  · have : (s.identity == identity && s.checksum == checksum) = false := by
      simpa using h
    simp [h, this]

/-- The checked script of a text, from the cache if it is there; a new one is added. -/
def check (c : Cache) (script : Script) : Except ScriptError Checked × Cache :=
  match c.find? script.identity script.checksum with
  | some checked => (.ok checked, c)
  | none =>
    match script.check with
    | .error e => (.error e, c)
    | .ok checked => (.ok checked, c.add checked)

end Cache

end Entitle
