import Entitle.Plan.Permission
import Entitle.Script.Expansion

/-!
# Plans

A plan is the list of actions that a script comes down to. Each action can be repeated: it asks
for a state of the repository and not for a change of it.

## Main definitions

* `Action`: what is asked of the repository.
* `Action.describe`, `Action.mutates`: its label, and whether it can change anything.
* `PlannedAction`: an action and the statement it comes from.
* `Plan`: the actions of a script, with its checksum and the scripts that contributed.
-/
namespace Entitle

/-- What is asked of the repository. -/
inductive Action where
  | ensure (kind : PrincipalKind) (id : String) (path : Option String)
  | addMember (group member : String)
  | removeMember (group member : String)
  | setPermission (path : String) (entry : Permission)
  | setProperty (path key value : String)
  | copy (source target : String)
  | move (source target : String)
  | delete (path : String)
  /-- Every privilege at or beneath the path is revoked that no permission in `keep` covers. -/
  | purge (path : String) (principal : Option String) (keep : List Grant)
  | checkPresent (id : String) (kind : Option PrincipalKind)
  | checkAbsent (id : String)
  | checkPermission (path : String) (entry : Permission)
  deriving DecidableEq, Repr

namespace Action

/-- A short label for reports. -/
def describe : Action → String
  | ensure kind id _ => s!"ensure {kind.name} '{id}'"
  | addMember group member => s!"add '{member}' to group '{group}'"
  | removeMember group member => s!"remove '{member}' from group '{group}'"
  | setPermission path entry =>
    s!"{entry.effect.name} {entry.privilegeText} on '{path}' for '{entry.principal}'"
  | setProperty path key value => s!"set '{key}' = '{value}' on '{path}'"
  | copy source target => s!"copy '{source}' to '{target}'"
  | move source target => s!"move '{source}' to '{target}'"
  | delete path => s!"delete '{path}'"
  | purge path (some principal) _ => s!"purge '{path}' for '{principal}'"
  | purge path none _ => s!"purge '{path}'"
  | checkPresent id _ => s!"check '{id}' exists"
  | checkAbsent id => s!"check '{id}' does not exist"
  | checkPermission path entry =>
    s!"check {entry.effect.name} {entry.privilegeText} on '{path}' for '{entry.principal}'"

/-- Can the action change the repository? Checks cannot. -/
def mutates : Action → Bool
  | checkPresent .. | checkAbsent .. | checkPermission .. => false
  | _ => true

end Action

/-- An action and the origin of its statement. -/
structure PlannedAction where
  action : Action
  origin : Origin
  deriving DecidableEq, Repr

/-- The actions of a script. -/
structure Plan where
  script : String
  checksum : String
  sources : List ScriptSource
  actions : List PlannedAction
  deriving DecidableEq, Repr

end Entitle
