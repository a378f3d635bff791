import Entitle.Plan.Action
import Entitle.Run.Change
import Entitle.Run.Request

/-!
# Inspection

Before an action is carried out, the repository is looked at to find what there is to do. The
inspection of an action only reads. In a forecast it reads through an overlay; otherwise the
overlay is empty and every path stands for itself.

## Main definitions

* `Overlay.kindOf`, `Overlay.hasNode`, `Overlay.property`, `Overlay.permissions`,
  `Overlay.subtree`: reading through an overlay.
* `Overlay.accepts`: the replies for which this is possible.
* `Overlay.revocations`: what a purge has to revoke.
* `Action.inspect`: what an action comes down to.
-/
namespace Entitle

namespace Overlay

variable (o : Overlay)

/-! ## Reading -/

/-- The kind of a principal, planned ones included. -/
def kindOf (id : String) : Attempt (Option PrincipalKind) := do
  match ← call (.principal id) with
  | some p => pure (some p.kind)
  | none => pure (o.principals.get? id)

/-- Is there a node at the path? -/
def hasNode (path : String) : Attempt Bool :=
  match o.backing path with
  | some real => call (.nodeExists real)
  | none => pure false

/-- A missing node is reported under the path that the script gives it. -/
def relabel (real path : String) : Failure → Failure
  | .notFound name => .notFound (if name = real then path else name)
  | other => other

/-- The property of a node. -/
def property (path key : String) : Attempt (Option String) :=
  match o.backing path with
  | some real => (call (.property real key)).adapt (relabel real path)
  | none => throw (.notFound path)

/-- The permissions on a node. -/
def permissions (path : String) : Attempt (List Permission) :=
  match o.backing path with
  | some real => (call (.readPermissions real)).adapt (relabel real path)
  | none => throw (.notFound path)

/-- The paths under which the nodes of a subtree at `real` are seen at `place`. A node is not seen
where another note hides it. The paths that were found are taken to lie within `real`. -/
def seenAt (place real : String) (found : List String) : List String :=
  found.filterMap fun p =>
    let seen := Path.rebase p real place
    if o.backing seen = some p then some seen else none

/-- The places and origins whose subtrees make up what is seen beneath a path. -/
def sourcesOf (root : String) : List (String × String) :=
  ((o.backing root).map (root, ·)).toList ++ o.placesWithin root

/-- All paths that are seen beneath the sources. -/
def collect : List (String × String) → Attempt (List String)
  | [] => pure []
  | (place, real) :: rest => do
    let found ← call (.descendants real)
    let more ← collect rest
    pure (o.seenAt place real found ++ more)

/-- The nodes at or beneath a path, as the script would see them. -/
def subtree (root : String) : Attempt (List String) :=
  if o.nodes.isEmpty then call (.descendants root)
  else do
    let seen ← o.collect (o.sourcesOf root)
    pure (NameSet.ofList seen).toList

/-- Can a reply be made sense of? Behind an overlay with nodes, the text of the place is cut off
every path that is found beneath it, which is not possible with all that a repository may reply. -/
def accepts : (r : Request) → r.Reply → Bool
  | .call (.descendants real), .ok found => o.nodes.isEmpty || found.all (Path.severable · real)
  | _, _ => true

/-- Without notes nothing is cut off. -/
theorem accepts_empty (r : Request) (reply : r.Reply) : empty.accepts r reply = true := by
  cases r with
  | call c => cases c <;> cases reply <;> rfl
  | cancelled | now => rfl

/-! ## Purging -/

/-- What a permission on a node loses when everything but `keep` is revoked. -/
def excess? (principal : Option String) (keep : List Grant) (node : String) (held : Permission) :
    Option Grant :=
  if principal.all (· == held.principal) then
    let kept := (keep.filter fun g => g.path == node && g.entry.sameTarget held).flatMap
      (·.entry.privileges.toList)
    let lost := held.privileges.filter fun p => !kept.contains p
    if lost.isEmpty then none else some ⟨node, { held with privileges := lost }⟩
  else none

/-- What has to be revoked on several nodes. -/
def revocations (principal : Option String) (keep : List Grant) :
    List String → Attempt (List Grant)
  | [] => pure []
  | node :: rest => do
    let acl ← o.permissions node
    let more ← revocations principal keep rest
    pure (acl.filterMap (excess? principal keep node) ++ more)

end Overlay

/-! ## Actions -/

/-- There is nothing to do because a check is passed. -/
def checkPassed : Finding := .settled "check passed"

/-- What an action comes down to. -/
def Action.inspect (o : Overlay) : Action → Attempt Finding
  | ensure kind id path => do
    match ← o.kindOf id with
    | some existing =>
      if existing = kind then pure (.settled s!"{kind.name} '{id}' exists")
      else throw (.conflict s!"'{id}' already exists as a {existing.name}")
    | none => pure (.due (.create kind id path))
  | addMember group member => do
    match ← call (.principal group) with
    | some g =>
      if g.members.contains member then
        return .settled s!"'{member}' is already a member of '{group}'"
      if g.kind ≠ .group then throw (.conflict s!"'{group}' is not a group")
    | none => if o.principals.get? group ≠ some .group then throw (.notFound group)
    match ← o.kindOf member with
    | some _ => pure (.due (.addMember group member))
    | none => throw (.notFound member)
  | removeMember group member => do
    match ← call (.principal group) with
    | some g =>
      if g.members.contains member then pure (.due (.removeMember group member))
      else pure (.settled s!"'{member}' is not a member of '{group}'")
    | none => pure (.settled s!"'{member}' is not a member of '{group}'")
  | setPermission path entry => do
    let acl ← o.permissions path
    if acl.any (·.covers entry) then pure (.settled s!"{entry.label} already in place")
    else pure (.due (.grant path entry))
  | setProperty path key value => do
    let current ← o.property path key
    if current = some value then pure (.settled s!"'{key}' already set")
    else pure (.due (.setProperty path key value))
  | copy source target => do
    if ← o.hasNode target then pure (.settled s!"'{target}' already exists")
    else if ← o.hasNode source then pure (.due (.copy source target))
    else throw (.notFound source)
  | move source target => do
    let atSource ← o.hasNode source
    let atTarget ← o.hasNode target
    match atSource, atTarget with
    | true, false => pure (.due (.move source target))
    | false, true => pure (.settled s!"already moved to '{target}'")
    | false, false => throw (.notFound source)
    | true, true => throw (.conflict s!"destination '{target}' already exists")
  | delete path => do
    if ← o.hasNode path then pure (.due (.delete path))
    else pure (.settled s!"'{path}' does not exist")
  | purge path principal keep => do
    let nodes ← o.subtree path
    match ← o.revocations principal keep nodes with
    | [] => pure (.settled "nothing to revoke")
    | batch => pure (.due (.revoke path batch))
  | checkPresent id wanted => do
    match ← o.kindOf id with
    | none => throw (.checkFailed s!"'{id}' does not exist")
    | some kind =>
      match wanted with
      | none => pure checkPassed
      | some k =>
        if kind = k then pure checkPassed
        else throw (.checkFailed s!"'{id}' is a {kind.name}, not a {k.name}")
  | checkAbsent id => do
    match ← o.kindOf id with
    | some kind => throw (.checkFailed s!"{kind.name} '{id}' exists")
    | none => pure checkPassed
  | checkPermission path entry => do
    let acl ← o.permissions path
    if acl.any (·.covers entry) then pure checkPassed
    else throw (.checkFailed
      s!"'{entry.principal}' lacks {entry.effect.name} {entry.privilegeText} on '{path}'")

end Entitle
