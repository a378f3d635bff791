import Entitle.Digest.Sha256
import Entitle.Script.Identity
import Entitle.Table
import Entitle.Text.Lines

/-!
# Script texts

A script is a text with an identity. The text is kept in its normal form, and the checksum is the
digest of exactly the text that is parsed.

## Main definitions

* `Script.ofText`: the script with an identity and a text.
* `LoadError`: why an identifier gives no script.
* `Loader`: what an identifier gives.
* `Shelf`: scripts kept in memory under their identities, with `Shelf.put` and `Shelf.load`.
-/
namespace Entitle

/-- A text in normal form, its checksum, and the identity it is known by. -/
structure Script where
  identity : String
  source : String
  checksum : String
  deriving DecidableEq, Repr

namespace Script

/-- The checksum of a text: the digest of its normal form. -/
def checksumOf (text : String) : String :=
  hexDigest (Text.normalForm text)

/-- The script with an identity and a text. -/
def ofText (identity text : String) : Script :=
  ⟨identity, Text.normalForm text, checksumOf text⟩

end Script

/-! ## Loading -/

/-- Why an identifier gives no script. -/
inductive LoadError where
  | notFound (identifier : String)
  /-- The identifier leads above the scripts or names none. -/
  | escapesRoot (identifier : String)
  /-- The script is there and cannot be read. -/
  | unreadable (identifier : String) (reason : String)
  deriving DecidableEq, Repr

/-- The wording of a load error. -/
def LoadError.message : LoadError → String
  | notFound identifier => s!"script '{identifier}' not found"
  | escapesRoot identifier => s!"script identifier '{identifier}' escapes the scripts root"
  | unreadable identifier reason => s!"cannot read script '{identifier}': {reason}"

/-- What an identifier gives. -/
abbrev Loader := String → Except LoadError Script

/-- Texts of scripts under their identities. -/
structure Shelf where
  texts : Table String
  deriving DecidableEq, Repr

namespace Shelf

/-- A shelf without scripts. -/
def empty : Shelf := ⟨.empty⟩

instance : Inhabited Shelf := ⟨empty⟩

/-- Put a text where its identifier leads, in the place of the text that was there. An identifier
that leads nowhere is taken as it is. -/
def put (s : Shelf) (identifier text : String) : Shelf :=
  ⟨s.texts.insert ((Identity.ofIdentifier? identifier).getD identifier) text⟩

/-- A shelf of several texts. -/
def ofList (scripts : List (String × String)) : Shelf :=
  scripts.foldl (fun s e => s.put e.1 e.2) empty

/-- The script that an identifier leads to. -/
def load (s : Shelf) : Loader := fun identifier =>
  match Identity.ofIdentifier? identifier with
  | none => .error (.escapesRoot identifier)
  | some identity =>
    match s.texts.get? identity with
    | none => .error (.notFound identifier)
    | some text => .ok (.ofText identity text)

end Shelf

end Entitle
