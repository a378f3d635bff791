import Entitle.Json.Printer

/-!
# JSON schemas

What a schema says about a JSON value, as far as the schema of plans needs it. A schema is a keyword
with its argument, or several of them side by side. A keyword about values of one type accepts all
values of other types.

## Main definitions

* `Json.Pattern`: regular expressions of two simple forms.
* `Json.Schema`: the keywords.
* `Json.Schema.accepts`: does a value satisfy a schema?

## Implementation notes

Of the integers only the unsigned ones count as such, and values are compared by their texts. Both
make no difference to a schema that asks for positive integers and compares strings.
-/
namespace Entitle.Json

/-- A regular expression that is anchored. -/
inductive Pattern where
  /-- The text begins with a character. -/
  | starts (c : Char)
  /-- The whole text consists of characters of a class, at least so many and at most so many. -/
  | whole (cls : Char → Bool) (least : Nat) (most : Option Nat)

/-- Does a text match? -/
def Pattern.accepts : Pattern → String → Bool
  | starts c, text => text.toList.head? == some c
  | whole cls least most, text =>
    text.toList.all cls && decide (least ≤ text.length) && most.all (text.length ≤ ·)

/-- The types of values that schemas ask for. -/
inductive Kind where
  | object
  | array
  | string
  | integer
  deriving DecidableEq, Repr

/-- Is the value of the type? -/
def Kind.accepts : Kind → Json → Bool
  | object, .obj _ => true
  | array, .arr _ => true
  | string, .str _ => true
  | integer, .nat _ => true
  | _, _ => false

/-- What may be asked of a value. -/
inductive Schema where
  /-- No value is accepted. -/
  | never
  | type (k : Kind)
  | minLength (n : Nat)
  | pattern (p : Pattern)
  | minimum (n : Nat)
  /-- The value is one of some strings. -/
  | enum (texts : List String)
  | minItems (n : Nat)
  | uniqueItems
  | items (s : Schema)
  | required (keys : List String)
  | properties (known : List (String × Schema))
  /-- All members but those with known keys satisfy a schema. -/
  | additional (known : List String) (s : Schema)
  /-- Everything is asked at once. -/
  | all (parts : List Schema)
  /-- The second schema is asked of values that satisfy the first one. -/
  | ifThen (condition consequence : Schema)

namespace Schema

mutual

/-- Does the value satisfy the schema? -/
def accepts : Schema → Json → Bool
  | never, _ => false
  | type k, j => k.accepts j
  | minLength n, .str text => decide (n ≤ text.length)
  | pattern p, .str text => p.accepts text
  | minimum n, .nat m => decide (n ≤ m)
  | enum texts, .str text => texts.contains text
  | enum _, _ => false
  | minItems n, .arr js => decide (n ≤ js.length)
  | uniqueItems, .arr js => decide ((js.map fun j => j.sortKeys.compact).Nodup)
  | items s, .arr js => js.all fun j => s.accepts j
  | required keys, .obj members => keys.all fun key => members.any (·.1 == key)
  | properties known, .obj members => acceptsKnown known members
  | additional known s, .obj members => members.all fun m => known.contains m.1 || s.accepts m.2
  | all parts, j => acceptsAll parts j
  | ifThen condition consequence, j => !condition.accepts j || consequence.accepts j
  | _, _ => true

/-- Does the value satisfy all schemas? -/
def acceptsAll : List Schema → Json → Bool
  | [], _ => true
  | s :: rest, j => s.accepts j && acceptsAll rest j

/-- Do all members satisfy the schemas of their keys? -/
def acceptsKnown : List (String × Schema) → List (String × Json) → Bool
  | [], _ => true
  | (key, s) :: rest, members =>
    (members.all fun m => m.1 != key || s.accepts m.2) && acceptsKnown rest members

end

section

variable {j : Json} {members : List (String × Json)} {js : List Json}

@[simp] theorem accepts_type {k : Kind} : (type k).accepts j = k.accepts j := by
  rw [accepts]

@[simp] theorem accepts_minimum {n m : Nat} : (minimum n).accepts (.nat m) = decide (n ≤ m) := rfl

@[simp] theorem accepts_enum {texts : List String} {text : String} :
    (enum texts).accepts (.str text) = texts.contains text := rfl

@[simp] theorem accepts_minLength {n : Nat} {text : String} :
    (minLength n).accepts (.str text) = decide (n ≤ text.length) := rfl

@[simp] theorem accepts_pattern {p : Pattern} {text : String} :
    (pattern p).accepts (.str text) = p.accepts text := rfl

@[simp] theorem accepts_minItems {n : Nat} :
    (minItems n).accepts (.arr js) = decide (n ≤ js.length) := rfl

@[simp] theorem accepts_items {s : Schema} :
    (items s).accepts (.arr js) = js.all fun j => s.accepts j := by
  rw [accepts]

@[simp] theorem accepts_required {keys : List String} :
    (required keys).accepts (.obj members) = keys.all fun key => members.any (·.1 == key) := rfl

@[simp] theorem accepts_properties {known : List (String × Schema)} :
    (properties known).accepts (.obj members) = acceptsKnown known members := rfl

@[simp] theorem accepts_additional {known : List String} {s : Schema} :
    (additional known s).accepts (.obj members) =
      members.all fun m => known.contains m.1 || s.accepts m.2 := by
  rw [accepts]

@[simp] theorem accepts_all {parts : List Schema} :
    (all parts).accepts j = acceptsAll parts j := by
  rw [accepts]

@[simp] theorem accepts_ifThen {s t : Schema} :
    (ifThen s t).accepts j = (!s.accepts j || t.accepts j) := by
  rw [accepts]

@[simp] theorem acceptsAll_nil : acceptsAll [] j = true := rfl

@[simp] theorem acceptsAll_cons {s : Schema} {rest : List Schema} :
    acceptsAll (s :: rest) j = (s.accepts j && acceptsAll rest j) := by
  rw [acceptsAll]

@[simp] theorem acceptsKnown_nil : acceptsKnown [] members = true := rfl

@[simp] theorem acceptsKnown_cons {key : String} {s : Schema} {rest : List (String × Schema)} :
    acceptsKnown ((key, s) :: rest) members =
      ((members.all fun m => m.1 != key || s.accepts m.2) && acceptsKnown rest members) := by
  rw [acceptsKnown]

end

/-- An object with members of known keys, some of them required, and no others. -/
def closed (keys : List String) (known : List (String × Schema)) : Schema :=
  all [type .object, required keys, properties known, additional (known.map (·.1)) never]

/-- A string that is not empty. -/
def name : Schema :=
  all [type .string, minLength 1]

/-- A string that matches. -/
def matching (p : Pattern) : Schema :=
  all [type .string, pattern p]

/-- An array of values that satisfy a schema. -/
def arrayOf (s : Schema) : Schema :=
  all [type .array, items s]

end Schema

end Entitle.Json
