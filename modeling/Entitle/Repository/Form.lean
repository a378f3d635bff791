import Entitle.Json.Printer
import Entitle.Json.Reader
import Entitle.Plan.Form
import Entitle.Repository.State

/-!
# The JSON form of repository states

A state is written with the principals first and both tables in the order of their keys; empty
parts of principals and nodes are left out. A state that is read always has a root.

## Main definitions

* `State.toJson`, `State.ofJson?`: writing and reading.
* `State.text`: the text of a state file.
* `State.ofText?`: the state of such a text.
-/
namespace Entitle

open Json (field optional)

/-- The written form of a principal. -/
def Principal.toJson (p : Principal) : Json :=
  .objOf [field "id" (.str p.id), field "kind" (.str p.kind.name),
    optional "path" (p.path.map .str),
    optional "members" (Json.unlessEmpty p.members.isEmpty p.members.toJson)]

/-- Read a principal. -/
def Principal.ofJson? (j : Json) : Option Principal := do
  let fs ← j.fields? ["id", "kind", "path", "members"]
  return ⟨← fs.required "id" Json.asString?, ← fs.required "kind" (PrincipalKind.ofJson? .strict),
    ← fs.optional "path" Json.asString?, ← fs.withDefault "members" .empty Json.asNames?⟩

/-- The written form of a node. -/
def Node.toJson (n : Node) : Json :=
  .objOf [optional "properties" (Json.unlessEmpty n.properties.isEmpty n.properties.toJson),
    optional "acl" (Json.unlessEmpty n.acl.isEmpty (.arr (n.acl.map Permission.toJson)))]

/-- Read a node. -/
def Node.ofJson? (j : Json) : Option Node := do
  let fs ← j.fields? ["properties", "acl"]
  return ⟨← fs.withDefault "properties" .empty (Json.asTable? Json.asString?),
    ← fs.withDefault "acl" [] (Json.asList? (Permission.ofJson? .strict))⟩

namespace State

/-- The written form of a state. -/
def toJson (s : State) : Json :=
  .objOf [field "principals" (.obj (s.principals.entries.map fun (k, p) => (k, p.toJson))),
    field "nodes" (.obj (s.nodes.entries.map fun (k, n) => (k, n.toJson)))]

/-- Read a state as it is written. -/
def ofJson? (j : Json) : Option State := do
  let fs ← j.fields? ["principals", "nodes"]
  return ⟨← fs.withDefault "principals" .empty (Json.asTable? Principal.ofJson?),
    ← fs.withDefault "nodes" .empty (Json.asTable? Node.ofJson?)⟩

/-- The text of a state file: the indented form and a line feed. -/
def text (s : State) : String :=
  s.toJson.pretty ++ "\n"

/-- The state that a text writes, with a root. -/
def ofText? (text : String) : Option State :=
  (Json.read? text).bind fun j => (ofJson? j).map (·.addNode "/")

end State

end Entitle
