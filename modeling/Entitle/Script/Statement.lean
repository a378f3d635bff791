import Entitle.Script.Origin

/-!
# Statements

What a script says, as it is written. A directive asks for something of the repository; the other
statements decide which directives there are: an inclusion, the definition of a flag, a condition
on a flag.

## Main definitions

* `PrincipalKind`, `Effect`: users and groups, grants and denials.
* `Directive`: a statement about the repository. Lists stay in the order of the text.
* `Statement`: a directive, an inclusion, a definition or a condition, with its origin.
-/
namespace Entitle

/-- A user or a group of users. -/
inductive PrincipalKind where
  | user
  | group
  deriving DecidableEq, Repr, Inhabited

/-- The word for a kind. -/
def PrincipalKind.name : PrincipalKind → String
  | user => "user"
  | group => "group"

/-- Whether a permission grants or denies its privileges. -/
inductive Effect where
  | allow
  | deny
  deriving DecidableEq, Repr, Inhabited

/-- The word for an effect. -/
def Effect.name : Effect → String
  | allow => "allow"
  | deny => "deny"

/-- A verification: it changes nothing. -/
inductive Check where
  /-- The principal exists, and is of the kind if one is given. -/
  | present (id : String) (kind : Option PrincipalKind)
  | absent (id : String)
  /-- A permission with these privileges is in place. -/
  | permission (effect : Effect) (privileges : List String) (path principal : String)
  deriving DecidableEq, Repr

/-- A statement about the repository. -/
inductive Directive where
  | create (kind : PrincipalKind) (id : String) (path : Option String)
  | addMember (member group : String)
  | removeMember (member group : String)
  | permission (effect : Effect) (privileges : List String) (path principal : String)
      (restrictions : List (String × String))
  | setProperty (path key value : String)
  | copy (source target : String)
  | move (source target : String)
  | delete (path : String)
  | purge (path : String) (principal : Option String)
  | check (c : Check)
  deriving DecidableEq, Repr

/-- A statement of a script. -/
inductive Statement where
  | directive (origin : Origin) (d : Directive)
  | inclusion (origin : Origin) (target : String)
  | define (origin : Origin) (flag : String) (value : Bool)
  | cond (origin : Origin) (flag : String) (negated : Bool)
      (thenBranch elseBranch : List Statement)
  deriving Repr, Inhabited

/-- The keyword of a directive, as messages show it. -/
def Directive.keyword : Directive → String
  | create .user .. => "create user"
  | create .group .. => "create group"
  | addMember .. => "add"
  | removeMember .. => "remove"
  | permission .allow .. => "allow"
  | permission .deny .. => "deny"
  | setProperty .. => "set"
  | copy .. => "copy"
  | move .. => "move"
  | delete .. => "delete"
  | purge .. => "purge"
  | check .. => "check"

namespace Statement

/-- Where the statement begins. -/
def origin : Statement → Origin
  | directive o _ => o
  | inclusion o _ => o
  | define o _ _ => o
  | cond o .. => o

/-- The keyword of a statement, as messages show it. -/
def keyword : Statement → String
  | directive _ d => d.keyword
  | inclusion .. => "include"
  | define .. => "define"
  | cond .. => "if"

end Statement

end Entitle
