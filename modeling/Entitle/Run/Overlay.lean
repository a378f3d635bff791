import Entitle.Repository.Path
import Entitle.Script.Statement
import Entitle.Table

/-!
# Overlays

A forecast changes nothing, so it has to remember what earlier actions would have done: which
principals they would have created and which subtrees they would have put somewhere or removed.
The tree that the script would see is the tree that is there, seen through these notes.

## Main definitions

* `Overlay`: planned principals and planned subtrees.
* `Overlay.backing`: the node that stands behind a path.
* `Overlay.putNode`, `Overlay.dropNode`, `Overlay.addPrincipal`: further notes.

## Main statements

* `Overlay.backing_empty`: without notes every path stands for itself.
-/
namespace Entitle

/-- What earlier actions of a forecast would have changed. -/
structure Overlay where
  /-- The kinds of the principals that would exist. -/
  principals : Table PrincipalKind
  /-- Under a path, the path whose present content would be there, or nothing if the subtree would
  be gone. The nearest note above a path counts. -/
  nodes : Table (Option String)
  deriving DecidableEq, Repr

namespace Overlay

/-- No notes. -/
def empty : Overlay := ⟨.empty, .empty⟩

instance : Inhabited Overlay := ⟨empty⟩

/-- The nearest note at or above a path, with its place. -/
def nearest? (o : Overlay) (path : String) : Option (String × Option String) :=
  (Path.ancestors path).findSome? fun p => (o.nodes.get? p).map (p, ·)

/-- The path of the node, as the tree is now, that would be at `path`; nothing if it would be
gone. -/
def backing (o : Overlay) (path : String) : Option String :=
  match o.nearest? path with
  | none => some path
  | some (place, origin) => origin.map (Path.rebase path place)

/-- Without notes every path stands for itself. -/
@[simp] theorem backing_empty (path : String) : empty.backing path = some path := by
  have : empty.nearest? path = none := by
    simp [nearest?, empty]
  simp [backing, this]

/-- Note that a subtree is replaced as a whole. -/
def plan (o : Overlay) (path : String) (origin : Option String) : Overlay :=
  { o with nodes := (o.nodes.filterKeys fun p => !Path.within p path).insert path origin }

/-- Note that the subtree at a path is gone. -/
def dropNode (o : Overlay) (path : String) : Overlay :=
  o.plan path none

/-- Note that a subtree has the content that is now to be seen at `source`. -/
def putNode (o : Overlay) (source target : String) : Overlay :=
  o.plan target (o.backing source)

/-- Note that a principal exists. -/
def addPrincipal (o : Overlay) (id : String) (kind : PrincipalKind) : Overlay :=
  { o with principals := o.principals.insert id kind }

/-- The places within a subtree where content from elsewhere would be, each with its origin. -/
def placesWithin (o : Overlay) (root : String) : List (String × String) :=
  o.nodes.entries.filterMap fun (place, origin) =>
    if Path.within place root then origin.map (place, ·) else none

end Overlay

end Entitle
