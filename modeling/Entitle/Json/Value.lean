/-!
# JSON values

The values that state files, history files and action lists are written in. The members of an
object stay in the order of the text, repeated keys included: what a repeated key means is
decided by whoever reads the object.

## Main definitions

* `Json`: a value. Numerals other than unsigned integers are kept as they are written.
* `Json.sortKeys`: every object with its members in increasing order of their keys.
* `Json.depth`, `Json.isReadable`: how deep a value nests, and whether all of it denotes something.
-/
namespace Entitle

/-- A JSON value. -/
inductive Json where
  | null
  | bool (b : Bool)
  /-- An unsigned integer numeral. -/
  | nat (n : Nat)
  /-- Any other numeral, as it is written. -/
  | numeral (text : String)
  | str (s : String)
  | arr (items : List Json)
  | obj (members : List (String × Json))
  /-- Well-formed text that denotes no value: a string with half a surrogate pair in it, an object
  with such a key, a numeral beyond the range of double precision. It may be passed over. -/
  | unreadable
  deriving Inhabited

namespace Json

/-- An object of the members that are present. -/
def objOf (members : List (Option (String × Json))) : Json :=
  .obj (members.filterMap id)

/-- A member that is always written. -/
def field (key : String) (value : Json) : Option (String × Json) :=
  some (key, value)

/-- A member that is left out when there is no value. -/
def optional (key : String) (value : Option Json) : Option (String × Json) :=
  value.map (key, ·)

/-! ## Order of members -/

/-- A member in its place among sorted members. -/
def insertMember (m : String × Json) : List (String × Json) → List (String × Json)
  | [] => [m]
  | n :: rest => if n.1 < m.1 then n :: insertMember m rest else m :: n :: rest

mutual

/-- The value with the members of every object in increasing order of their keys. -/
def sortKeys : Json → Json
  | .arr items => .arr (sortKeysInItems items)
  | .obj members => .obj (sortKeysInMembers members)
  | other => other

/-- Each item with sorted keys. -/
def sortKeysInItems : List Json → List Json
  | [] => []
  | j :: rest => j.sortKeys :: sortKeysInItems rest

/-- The members in order, each value with sorted keys. -/
def sortKeysInMembers : List (String × Json) → List (String × Json)
  | [] => []
  | (k, j) :: rest => insertMember (k, j.sortKeys) (sortKeysInMembers rest)

end

/-! ## Extent -/

mutual

/-- The number of arrays and objects around the most deeply nested value. -/
def depth : Json → Nat
  | .arr items => depthOfItems items + 1
  | .obj members => depthOfMembers members + 1
  | _ => 0

/-- The greatest depth of the items. -/
def depthOfItems : List Json → Nat
  | [] => 0
  | j :: rest => max j.depth (depthOfItems rest)

/-- The greatest depth of the members. -/
def depthOfMembers : List (String × Json) → Nat
  | [] => 0
  | (_, j) :: rest => max j.depth (depthOfMembers rest)

end

mutual

/-- Nothing in the value is unreadable. -/
def isReadable : Json → Bool
  | .unreadable => false
  | .arr items => itemsReadable items
  | .obj members => membersReadable members
  | _ => true

/-- All items are readable. -/
def itemsReadable : List Json → Bool
  | [] => true
  | j :: rest => j.isReadable && itemsReadable rest

/-- All members are readable. -/
def membersReadable : List (String × Json) → Bool
  | [] => true
  | (_, j) :: rest => j.isReadable && membersReadable rest

end

end Json

end Entitle
