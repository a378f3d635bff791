import Entitle.Plan.Permission
import Entitle.Repository.Path

/-!
# Repository states

A repository holds principals, users and groups, and a tree of nodes with properties and
permissions. The operations here are total functions on states: each gives the new state or the
refusal, and a refused operation has no state to leave behind.

## Main definitions

* `Principal`, `Node`, `State`: what a repository holds.
* `Refusal`: why an operation is refused.
* `State.addNode`: a node with everything above it.
* `State.ensurePrincipal`, `State.addMember`, `State.removeMember`: principals.
* `State.setPermission`, `State.revokeAll`, `State.setProperty`: nodes.
* `State.transfer`, `State.delete`: subtrees.

## Main statements

* `Node.get?_setProperty`, `State.get?_modifyNode`: what a change of a node does to look-ups.
-/
namespace Entitle

/-! ## Parts -/

/-- A user or a group. -/
structure Principal where
  id : String
  kind : PrincipalKind
  path : Option String
  members : NameSet
  deriving DecidableEq, Repr

/-- The properties and the permissions of a node, the permissions in the order they came. -/
structure Node where
  properties : Table String
  acl : List Permission
  deriving DecidableEq, Repr

/-- A node without properties and permissions. -/
def Node.empty : Node := ⟨.empty, []⟩

instance : Inhabited Node := ⟨.empty⟩

/-- What a repository holds. Nodes are kept under their paths. -/
structure State where
  principals : Table Principal
  nodes : Table Node
  deriving DecidableEq, Repr

/-- Why an operation is refused. -/
inductive Refusal where
  /-- A node or a principal that the operation depends on does not exist. -/
  | notFound (name : String)
  /-- The operation contradicts what is there. -/
  | conflict (reason : String)
  /-- The repository does not allow the operation. -/
  | rejected (reason : String)
  deriving DecidableEq, Repr

/-- The wording of a refusal. -/
def Refusal.message : Refusal → String
  | notFound name => s!"not found: {name}"
  | conflict reason => s!"conflict: {reason}"
  | rejected reason => s!"rejected: {reason}"

/-! ## Permission lists -/

/-- A permission list with one permission more: its privileges go to the first permission with the
same target, or it is added at the end. -/
def Node.grantIn (entry : Permission) : List Permission → List Permission
  | [] => [entry]
  | p :: rest =>
    if p.sameTarget entry then p.withMore entry.privileges :: rest
    else p :: grantIn entry rest

/-- A permission list without the privileges of `entry` at its target. No permission without
privileges stays. -/
def Node.revokeIn (entry : Permission) (acl : List Permission) : List Permission :=
  (acl.map fun p => if p.sameTarget entry then p.without entry.privileges else p).filter
    fun p => !p.privileges.isEmpty

namespace Node

/-- The node with a permission more. -/
def grant (entry : Permission) (n : Node) : Node :=
  { n with acl := grantIn entry n.acl }

/-- The node with privileges less. -/
def revoke (entry : Permission) (n : Node) : Node :=
  { n with acl := revokeIn entry n.acl }

/-- The node with a value for a property. -/
def setProperty (key value : String) (n : Node) : Node :=
  { n with properties := n.properties.insert key value }

theorem get?_setProperty (key value k : String) (n : Node) :
    (n.setProperty key value).properties.get? k =
      if k = key then some value else n.properties.get? k :=
  Table.get?_insert ..

end Node

namespace State

/-! ## Nodes -/

/-- A state without principals, whose only node is the root. -/
def initial : State := ⟨.empty, Table.empty.insert "/" .empty⟩

instance : Inhabited State := ⟨initial⟩

/-- Is there a node at the path? -/
def hasNode (s : State) (path : String) : Bool :=
  s.nodes.contains path

/-- A table of nodes with an empty one at a path where there was none. -/
def addTo (nodes : Table Node) (path : String) : Table Node :=
  if nodes.contains path then nodes else nodes.insert path .empty

/-- The state with a node at a path and at every path above it. -/
def addNode (s : State) (path : String) : State :=
  { s with nodes := (Path.ancestors path).foldl addTo s.nodes }

/-- The paths of the nodes at or beneath a path, in increasing order. -/
def subtree (s : State) (root : String) : List String :=
  s.nodes.keys.filter (Path.within · root)

/-- The node at a path, or the refusal that it is missing. -/
def node (s : State) (path : String) : Except Refusal Node :=
  match s.nodes.get? path with
  | some n => .ok n
  | none => .error (.notFound path)

/-- The state with the node at a path changed, if there is one. -/
def modifyNode (s : State) (path : String) (f : Node → Node) : State :=
  { s with nodes := s.nodes.modify path f }

theorem get?_modifyNode (s : State) (path p : String) (f : Node → Node) :
    (s.modifyNode path f).nodes.get? p =
      if p = path then (s.nodes.get? path).map f else s.nodes.get? p :=
  Table.get?_modify ..

@[simp] theorem principals_modifyNode (s : State) (path : String) (f : Node → Node) :
    (s.modifyNode path f).principals = s.principals := rfl

/-- The change of a node that has to exist. -/
def changeNode (s : State) (path : String) (f : Node → Node) : Except Refusal State :=
  if s.hasNode path then .ok (s.modifyNode path f) else .error (.notFound path)

/-- Merge a permission into the list of a node. -/
def setPermission (s : State) (path : String) (entry : Permission) : Except Refusal State :=
  s.changeNode path (·.grant entry)

/-- Set a property of a node. -/
def setProperty (s : State) (path key value : String) : Except Refusal State :=
  s.changeNode path (·.setProperty key value)

/-- Revoke privileges on nodes, one after the other. -/
def revokeEach (s : State) (batch : List Grant) : State :=
  batch.foldl (fun s g => s.modifyNode g.path (·.revoke g.entry)) s

/-- Revoke privileges on several nodes as one change: it is refused if one of the nodes is
missing. -/
def revokeAll (s : State) (batch : List Grant) : Except Refusal State :=
  match batch.find? fun g => !s.hasNode g.path with
  | some missing => .error (.notFound missing.path)
  | none => .ok (s.revokeEach batch)

/-! ## Subtrees -/

/-- The table of nodes with the given ones put at their places under `target`. -/
def plant (source target : String) (nodes : Table Node) (moved : List (String × Node)) :
    Table Node :=
  moved.foldl (fun t e => t.insert (Path.rebase e.1 source target) e.2) nodes

/-- The refusal of a path whose parent is missing. -/
def missingParent? (s : State) (path : String) : Option Refusal :=
  (Path.parent? path).bind fun up => if s.hasNode up then none else some (.notFound up)

/-- Put the subtree at `source` also at `target`, or only there. -/
def transfer (s : State) (source target : String) (keepSource : Bool) : Except Refusal State :=
  if !s.hasNode source then .error (.notFound source)
  else if s.hasNode target then .error (.conflict s!"'{target}' already exists")
  else match s.missingParent? target with
    | some refusal => .error refusal
    | none =>
      let moved := (s.nodes.filterKeys (Path.within · source)).entries
      let kept :=
        if keepSource then s.nodes else s.nodes.filterKeys fun p => !Path.within p source
      .ok { s with nodes := plant source target kept moved }

/-- Remove the subtree at a path. The root stays. -/
def delete (s : State) (path : String) : Except Refusal State :=
  if path = "/" then .error (.rejected "the root cannot be deleted")
  else if s.subtree path = [] then .error (.notFound path)
  else .ok { s with nodes := s.nodes.filterKeys fun p => !Path.within p path }

/-! ## Principals -/

/-- Create a principal unless it is there. One of the other kind is a conflict. -/
def ensurePrincipal (s : State) (kind : PrincipalKind) (id : String) (path : Option String) :
    Except Refusal State :=
  match s.principals.get? id with
  | some p =>
    if p.kind = kind then .ok s
    else .error (.conflict s!"'{id}' already exists as a {p.kind.name}")
  | none => .ok { s with principals := s.principals.insert id ⟨id, kind, path, .empty⟩ }

/-- Change the members of a group. -/
def changeMembers (s : State) (group : String) (f : NameSet → NameSet) : Except Refusal State :=
  match s.principals.get? group with
  | none => .error (.notFound group)
  | some p =>
    match p.kind with
    | .user => .error (.conflict s!"'{group}' is a user, not a group")
    | .group =>
      .ok { s with principals := s.principals.insert group { p with members := f p.members } }

/-- Add an existing principal to a group. -/
def addMember (s : State) (group member : String) : Except Refusal State :=
  if s.principals.contains member then s.changeMembers group (·.insert member)
  else .error (.notFound member)

/-- Remove a name from the members of a group. -/
def removeMember (s : State) (group member : String) : Except Refusal State :=
  s.changeMembers group (·.erase member)

end State

end Entitle
