import Entitle.Repository.Call
import Entitle.Run.Overlay

/-!
# Changes

What an action comes down to once the repository has been looked at: nothing, or exactly one
change. A change is one call on the repository; a forecast notes it in an overlay instead.

## Main definitions

* `Change`, `Finding`: the change that is due, or the reason why there is none.
* `Change.call`: the call that makes the change.
* `Change.done`, `Change.forecast`: what a report says about a change that was made or is due.
* `Change.note`: the overlay after the change.

## Main statements

* `Change.mutates_call`: the call of a change is one that changes the repository.
-/
namespace Entitle

/-- A single change of a repository. -/
inductive Change where
  | create (kind : PrincipalKind) (id : String) (path : Option String)
  | addMember (group member : String)
  | removeMember (group member : String)
  | grant (path : String) (entry : Permission)
  | setProperty (path key value : String)
  | copy (source target : String)
  | move (source target : String)
  | delete (path : String)
  /-- Revoke privileges at or beneath a path. -/
  | revoke (root : String) (batch : List Grant)
  deriving DecidableEq, Repr

/-- What an action comes down to. -/
inductive Finding where
  /-- Nothing has to be done. -/
  | settled (reason : String)
  | due (change : Change)
  deriving DecidableEq, Repr

/-- A permission as reports show it. -/
def Permission.label (p : Permission) : String :=
  s!"{p.effect.name} {p.privilegeText} for '{p.principal}'"

namespace Change

/-- The call that makes the change. -/
def call : Change → Call
  | create kind id path => .ensurePrincipal kind id path
  | addMember group member => .addMember group member
  | removeMember group member => .removeMember group member
  | grant path entry => .setPermission path entry
  | setProperty path key value => .setProperty path key value
  | copy source target => .copy source target
  | move source target => .move source target
  | delete path => .delete path
  | revoke _ batch => .revokePermissions batch

/-- The call of a change is one that changes the repository. -/
@[simp] theorem mutates_call (c : Change) : c.call.mutates = true := by
  cases c <;> rfl

/-- The number of permissions that lose privileges, in words. -/
def entryCount (batch : List Grant) : String :=
  if batch.length = 1 then s!"{batch.length} entry" else s!"{batch.length} entries"

/-- What a report says about a change that was made. -/
def done : Change → String
  | create kind id _ => s!"created {kind.name} '{id}'"
  | addMember group member => s!"added '{member}' to '{group}'"
  | removeMember group member => s!"removed '{member}' from '{group}'"
  | grant _ entry => entry.label
  | setProperty _ key value => s!"set '{key}' = '{value}'"
  | copy source target => s!"copied '{source}' to '{target}'"
  | move source target => s!"moved '{source}' to '{target}'"
  | delete path => s!"deleted '{path}'"
  | revoke root batch => s!"revoked {entryCount batch} under '{root}'"

/-- What a report says about a change that would be made. -/
def forecast : Change → String
  | create kind id _ => s!"would create {kind.name} '{id}'"
  | addMember group member => s!"would add '{member}' to '{group}'"
  | removeMember group member => s!"would remove '{member}' from '{group}'"
  | grant _ entry => s!"would {entry.label}"
  | setProperty _ key value => s!"would set '{key}' = '{value}'"
  | copy source target => s!"would copy '{source}' to '{target}'"
  | move source target => s!"would move '{source}' to '{target}'"
  | delete path => s!"would delete '{path}'"
  | revoke root batch => s!"would revoke {entryCount batch} under '{root}'"

/-- The place where the change puts a subtree. Its parent has to exist. -/
def destination? : Change → Option String
  | copy _ target => some target
  | move _ target => some target
  | _ => none

/-- The overlay with the change noted. Members, permissions and properties are not noted. -/
def note (o : Overlay) : Change → Overlay
  | create kind id _ => o.addPrincipal id kind
  | copy source target => o.putNode source target
  | move source target => (o.putNode source target).dropNode source
  | delete path => o.dropNode path
  | _ => o

end Change

end Entitle
