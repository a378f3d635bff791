import Entitle.Json.Value
import Entitle.NameSet

/-!
# Shapes of JSON values

How the values of the library are read from JSON. A record is an object, whose unknown members are
passed over and whose known members may not be repeated, or an array of its fields in their order.
A choice without data is its name, or an object from its name to null.

A value that can only be read when a tag elsewhere in its record is known has to be set aside until
then. Values that were set aside are read leniently: an empty object does for null in a choice, and
the place of a name among the names for a name that is no choice of its own.

## Main definitions

* `Json.Manner`: strict and lenient reading.

* `Json.asString?`, `Json.asBool?`, `Json.asNatBelow?`, `Json.asList?`, `Json.asTable?`: plain
  values.
* `Json.fields?`, with `Fields.required`, `Fields.optional`, `Fields.withDefault`: records.
* `Json.choice?`, `Json.named?`: choices without data, and bare names.
* `Json.tagged?`: records with one member that says which record it is.
* `Json.adjacent?`: a tag beside its content.
-/
namespace Entitle.Json

variable {α : Type}

/-- How a value is read. -/
inductive Manner where
  | strict
  /-- The value was set aside before. -/
  | lenient
  deriving DecidableEq, Repr

/-! ## Plain values -/

/-- The text of a string. -/
def asString? : Json → Option String
  | .str s => some s
  | _ => none

/-- A truth value. -/
def asBool? : Json → Option Bool
  | .bool b => some b
  | _ => none

/-- An unsigned integer below a bound. -/
def asNatBelow? (bound : Nat) : Json → Option Nat
  | .nat n => if n < bound then some n else none
  | _ => none

/-- The items of an array, each read by `f`. -/
def asList? (f : Json → Option α) : Json → Option (List α)
  | .arr items => items.mapM f
  | _ => none

/-- The table of an object; of repeated keys the last one counts. -/
def asTable? (f : Json → Option α) : Json → Option (Table α)
  | .obj members =>
    (members.mapM fun (m : String × Json) => (f m.2).map (m.1, ·)).map .ofList
  | _ => none

/-- The set of the names in an array. -/
def asNames? (j : Json) : Option NameSet :=
  (asList? asString? j).map .ofList

/-- Null, or a value. -/
def asOption? (f : Json → Option α) : Json → Option (Option α)
  | .null => some none
  | j => (f j).map some

/-! ## Records -/

/-- The known fields of a record that are present. -/
abbrev Fields := List (String × Json)

/-- The known fields of a record. -/
def fields? (names : List String) : Json → Option Fields
  | .obj members =>
    let known := members.filter fun m => names.contains m.1
    if (known.map (·.1)).Nodup then some known else none
  | .arr items => if items.length ≤ names.length then some (names.zip items) else none
  | _ => none

/-- A field that has to be present. -/
def Fields.required (fs : Fields) (name : String) (f : Json → Option α) : Option α :=
  (fs.lookup name).bind f

/-- A field that may be absent or null. -/
def Fields.optional (fs : Fields) (name : String) (f : Json → Option α) : Option (Option α) :=
  match fs.lookup name with
  | none => some none
  | some j => asOption? f j

/-- A field that has a value of its own when it is absent. -/
def Fields.withDefault (fs : Fields) (name : String) (value : α) (f : Json → Option α) :
    Option α :=
  match fs.lookup name with
  | none => some value
  | some j => f j

/-! ## Choices -/

/-- One of several names, perhaps as an object from the name to nothing. -/
def choice? (m : Manner) (cases : List (String × α)) : Json → Option α
  | .str s => cases.lookup s
  | .obj [(s, .null)] => cases.lookup s
  | .obj [(s, .obj [])] => if m = .lenient then cases.lookup s else none
  | _ => none

/-- One of several names, perhaps given by its place. -/
def named? (m : Manner) (cases : List (String × α)) : Json → Option α
  | .str s => cases.lookup s
  | .nat n => if m = .lenient then cases[n]?.map (·.2) else none
  | _ => none

/-- A record with a tag: the value of the tag and the record without it. -/
def tagged? (tag : String) : Json → Option (Json × Json)
  | .obj members =>
    match members.filter (·.1 == tag) with
    | [(_, value)] => some (value, .obj (members.filter (·.1 != tag)))
    | _ => none
  | .arr (value :: rest) => some (value, .arr rest)
  | _ => none

/-- The content that stands beside a tag, and how it is read. -/
structure Content where
  manner : Manner
  value : Json

/-- The content of an object with a tag, if it is there: set aside if it stands before the tag. -/
def Fields.content? (fs : Fields) (m : Manner) (content : String) : Option Content :=
  (fs.lookup content).map fun value =>
    ⟨if fs.head?.map (·.1) = some content then .lenient else m, value⟩

/-- A tag beside its content. In an object the tag is a choice and the content may be absent; an
array holds a name and the content. -/
def adjacent? (m : Manner) (tag content : String) (cases : List (String × α)) :
    Json → Option (α × Option Content)
  | .arr [name, value] => (named? m cases name).map (·, some ⟨m, value⟩)
  | .obj members => do
    let fs ← fields? [tag, content] (.obj members)
    return (← fs.required tag (choice? m cases), fs.content? m content)
  | _ => none

end Entitle.Json
