import Entitle.Text.Segments

/-!
# Identities of scripts

A script may be named in several ways: with or without its extension, with empty and relative
segments. Its identity is the one name that is left when these are resolved.

## Main definitions

* `Identity.resolve`: the segments that are left when `.` and `..` are taken literally.
* `Identity.ofIdentifier?`: the identity that an identifier stands for.
-/
namespace Entitle.Identity

/-- The end of the file name of every script. -/
def extension : List Char := ".warden".toList

/-- A slash in either direction. -/
def isSeparator (c : Char) : Bool :=
  c == '/' || c == '\\'

/-- Go through the segments with the ones entered so far, the innermost first. An empty segment
and a dot stay in place, two dots leave the innermost segment. There is no way above the root. -/
def resolve : List (List Char) → List (List Char) → Option (List (List Char))
  | entered, [] => some entered
  | entered, segment :: rest =>
    if segment = [] ∨ segment = ['.'] then resolve entered rest
    else if segment = ['.', '.'] then
      match entered with
      | [] => none
      | _ :: outer => resolve outer rest
    else resolve (segment :: entered) rest

/-- A file name without the extension of scripts, taken off once. -/
def stem (name : List Char) : List Char :=
  if extension.isSuffixOf name then name.take (name.length - extension.length) else name

/-- The segments of an identity joined by slashes. -/
def join (segments : List (List Char)) : String :=
  String.ofList (['/'].intercalate segments)

/-- The identity of a script, unless the identifier leads above the root or names no script. -/
def ofIdentifier? (identifier : String) : Option String :=
  match resolve [] (Text.splitAt isSeparator identifier.toList) with
  | none | some [] => none
  | some (last :: outer) =>
    if stem last = [] then none else some (join (stem last :: outer).reverse)

example : ofIdentifier? "/a/x/..\\./b.warden" = some "a/b" := by decide +kernel
example : ofIdentifier? "../outside" = none ∧ ofIdentifier? ".warden" = none := by decide +kernel

end Entitle.Identity
