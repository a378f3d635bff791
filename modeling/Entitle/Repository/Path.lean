import Entitle.Text.Printing
import Entitle.Text.Segments

/-!
# Paths of nodes

Nodes are named by absolute paths with slashes. The functions here take any text: the paths of a
script are checked by `Path.problem?` first, but those of a state file are not.

## Main definitions

* `Path.problem?`: why a text is no well-formed path.
* `Path.within`: is a path at or beneath another one?
* `Path.parent?`, `Path.ancestors`: the way up to the root.
* `Path.severable`, `Path.rebase`: the path at another place of a subtree, and whether it can be cut
  out for that.

## Main statements

* `Path.length_parent`: the parent is shorter, so the way up ends.
-/
namespace Entitle

/-- What is wrong with a path. -/
inductive PathProblem where
  | empty
  | relative
  | trailingSlash
  | illegalCharacter (c : Char)
  | emptySegment
  | relativeSegment (segment : String)
  deriving DecidableEq, Repr

/-- The wording of a problem of `path`. -/
def PathProblem.describe (path : String) : PathProblem → String
  | empty => "path must not be empty"
  | relative => s!"path '{path}' must be absolute"
  | trailingSlash => s!"path '{path}' must not end with '/'"
  | illegalCharacter c => s!"path '{path}' contains illegal character {Text.quotedChar c}"
  | emptySegment => s!"path '{path}' contains an empty segment"
  | relativeSegment segment => s!"path '{path}' contains a relative segment '{segment}'"

namespace Path

/-! ## Well-formed paths -/

/-- Control characters and the five characters that have a meaning in queries. -/
def isIllegal (c : Char) : Bool :=
  Text.isControl c || c == '[' || c == ']' || c == '*' || c == '|' || c == '"'

/-- What is wrong with one segment. -/
def segmentProblem? (segment : List Char) : Option PathProblem :=
  if segment = [] then some .emptySegment
  else if segment = ['.'] ∨ segment = ['.', '.'] then
    some (.relativeSegment (String.ofList segment))
  else none

/-- The segments of a path after its first slash. -/
def segments (cs : List Char) : List (List Char) :=
  Text.splitAt (· == '/') cs

/-- The first thing that is wrong with a path. -/
def problem? (path : String) : Option PathProblem :=
  match path.toList with
  | [] => some .empty
  | c :: rest =>
    if c ≠ '/' then some .relative
    else if rest = [] then none
    else if rest.getLast? = some '/' then some .trailingSlash
    else match path.toList.find? isIllegal with
      | some illegal => some (.illegalCharacter illegal)
      | none => (segments rest).findSome? segmentProblem?

/-! ## Order of paths -/

/-- The path is the root of the subtree, or the root and a slash begin it. -/
def within (path root : String) : Bool :=
  if root = "/" then path.toList.head? == some '/'
  else path == root || (root.toList ++ ['/']).isPrefixOf path.toList

/-- The path up to the last slash, or the root if that is the first character. The root has no
parent, nor has a text without a slash. -/
def parent? (path : String) : Option String :=
  if path = "/" then none
  else match path.toList.reverse.dropWhile (· != '/') with
    | [] => none
    | [_] => some "/"
    | _ :: before => some (String.ofList before.reverse)

/-- The parent is shorter than the path. -/
theorem length_parent {path up : String} (h : parent? path = some up) :
    up.length < path.length := by
  have hlen := (List.dropWhile_sublist (· != '/') (l := path.toList.reverse)).length_le
  rw [List.length_reverse, String.length_toList] at hlen
  unfold parent? at h
  split at h
  · simp at h
  · next hroot =>
    split at h
    · simp at h
    · next slash heq =>
      cases h
      rw [heq] at hlen
      by_cases h1 : path.length = 1
      · refine absurd ?_ hroot
        obtain ⟨c, hc⟩ := List.length_eq_one_iff.1 (by rwa [String.length_toList])
        rw [hc, List.reverse_singleton] at heq
        have : c = '/' := by
          cases hne : c != '/' with
          | true => simp [List.dropWhile, hne] at heq
          | false => simpa using hne
        rw [← String.ofList_toList (s := path), hc, this]
      · simp only [List.length_singleton] at hlen
        show 1 < path.length
        omega
    · next before heq =>
      cases h
      rw [heq] at hlen
      simp only [List.length_cons] at hlen
      simp only [String.length_ofList, List.length_reverse]
      omega

/-- The path and everything above it, from the bottom to the top. -/
def ancestors (path : String) : List String :=
  path :: match h : parent? path with
    | none => []
    | some up =>
      have := length_parent h
      ancestors up
termination_by path.length

/-! ## Other places -/

/-- Can a text be cut behind its first `n` bytes? It has to be as long, and the cut must not go
through a character. -/
def isBoundary : Nat → List Char → Bool
  | 0, _ => true
  | _ + 1, [] => false
  | n + 1, c :: rest => c.utf8Size ≤ n + 1 && isBoundary (n + 1 - c.utf8Size) rest

/-- A text without its first `n` bytes. This is for texts that can be cut there; of any other one
nothing is left, or what stands behind the character that is cut. -/
def dropBytes (n : Nat) : List Char → List Char
  | [] => []
  | c :: rest => if n = 0 then c :: rest else dropBytes (n - c.utf8Size) rest

@[simp] theorem dropBytes_zero (cs : List Char) : dropBytes 0 cs = cs := by
  cases cs <;> simp [dropBytes]

/-- Can as many bytes be cut off a path as `source` has? This is so for every path within `source`.
A program that tries it with another path may have to break off. -/
def severable (path source : String) : Bool :=
  isBoundary source.utf8ByteSize path.toList

/-- The path that stands under `target` as `path` stands under `source`: the text of `source` is
replaced, and the root contributes no text. It is meant for paths that are `severable`, and makes
something up for others. -/
def rebase (path source target : String) : String :=
  let suffix := String.ofList (dropBytes source.utf8ByteSize path.toList)
  if target = "/" then if suffix = "" then "/" else suffix
  else target ++ suffix

example : rebase "/a/b/c" "/a/b" "/x" = "/x/c" ∧ rebase "/a/b" "/a" "/" = "/b" := by
  decide +kernel
example : severable "/a/b" "/a" = true ∧ severable "/" "/a" = false ∧
    severable "/ä" "/a" = false := by
  decide +kernel
example : parent? "/a/b" = some "/a" ∧ parent? "/a" = some "/" ∧ parent? "/" = none := by
  decide +kernel

end Path

end Entitle
