import Entitle.Text.Segments

/-!
# File names

Names of files as users write them: relative or absolute, with slashes. The functions here look at
the name alone and not at any file.

## Main definitions

* `FileName.pieces`: the texts between the slashes of a name.
* `FileName.outward`: a name and the names of the directories around it.
* `FileName.directory?`: the directory that a name puts its file in, if it names one.

## Implementation notes

A shorter name is a start of the longer one as it is written, with its empty pieces and its dots:
they lead nowhere, but they count in the length of a name, which the host may limit.
-/
namespace Entitle.FileName

/-- Does the name start at the root of the host? -/
def isAbsolute (name : String) : Bool :=
  name.toList.head? == some '/'

/-- The texts between slashes. -/
def pieces (name : String) : List String :=
  (Text.splitAt (· == '/') name.toList).map String.ofList

/-- Does a piece with these pieces before it lead nowhere? Empty pieces and dots do, but a relative
name may be a dot or start with one. -/
def leadsNowhere (piece : String) (before : List String) : Bool :=
  piece == "" || (piece == "." && !before.isEmpty)

/-- The pieces, given from the last one on, from the last one that leads somewhere. -/
def settle : List String → List String
  | [] => []
  | piece :: before => if leadsNowhere piece before then settle before else piece :: before

/-- The names that end in one of the pieces, given from the last one on. -/
def outwardFrom : List String → List String
  | [] => []
  | piece :: before =>
    if leadsNowhere piece before then outwardFrom before
    else "/".intercalate (piece :: before).reverse :: outwardFrom before

/-- A name and the names of the directories around it, from the inside out. The root and the
working directory are not among them. -/
def outward (name : String) : List String :=
  outwardFrom (pieces name).reverse

/-- The last piece of a name that leads somewhere. -/
def last (name : String) : String :=
  (settle (pieces name).reverse).headD ""

/-- The name of the directory around a file. A relative name of a single piece has none, nor has the
root. -/
def directory? (name : String) : Option String :=
  match settle (pieces name).reverse with
  | [] => none
  | _ :: before =>
    match settle before with
    | [] => if isAbsolute name then some "/" else none
    | pieces => some ("/".intercalate pieces.reverse)

example : outward "a/./b//c/" = ["a/./b//c", "a/./b", "a"] := by decide +kernel

example : directory? "a/./b/." = some "a" ∧ directory? "/a" = some "/" ∧ directory? "a" = none
    ∧ directory? "./a" = some "." ∧ directory? "a/.." = some "a" ∧ directory? "/" = none := by
  decide +kernel

end Entitle.FileName
