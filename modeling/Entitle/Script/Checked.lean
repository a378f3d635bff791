import Entitle.Repository.Path
import Entitle.Script.Source
import Entitle.Script.Statement

/-!
# Checked scripts

A well-formed statement may still ask for something that makes no sense: an empty id, a path with
two slashes, a copy into itself. All such problems of a script are collected, in the order of its
text, and only a script without any is a checked script.

## Main definitions

* `Problem`, `SemanticError`: what is wrong with a statement, and where.
* `Directive.problems`, `Statement.problems`: the problems of one statement.
* `Checked`: a script whose statements have no problems.
* `Checked.ofScript`: the check.
-/
namespace Entitle

/-- What is wrong with a statement. `subject` says for the message which part is meant. -/
inductive Problem where
  | path (subject path : String) (problem : PathProblem)
  | emptyId (subject : String)
  | illegalId (subject id : String) (c : Char)
  | selfMembership (group : String)
  | noPrivileges
  | emptyPrivilege
  | emptyRestriction
  | duplicateRestriction (key : String)
  | emptyRestrictionValue (key : String)
  | emptyPropertyName
  | slashInPropertyName (key : String)
  | sameEnds (verb : String)
  | targetInsideSource (verb source target : String)
  | rootDeletion
  | emptyInclusion
  | blankInInclusion (target : String)
  | emptyFlag
  deriving DecidableEq, Repr

/-- The wording of a problem. -/
def Problem.message : Problem → String
  | path subject p problem => s!"{subject}: {problem.describe p}"
  | emptyId subject => s!"{subject} must not be empty"
  | illegalId subject id c =>
    s!"{subject} '{id}' contains illegal character {Text.quotedChar c}"
  | selfMembership group => s!"group '{group}' cannot be a member of itself"
  | noPrivileges => "privilege set must not be empty"
  | emptyPrivilege => "privilege name must not be empty"
  | emptyRestriction => "restriction name must not be empty"
  | duplicateRestriction key => s!"duplicate restriction '{key}'"
  | emptyRestrictionValue key => s!"restriction '{key}' has an empty value"
  | emptyPropertyName => "property name must not be empty"
  | slashInPropertyName key => s!"property name '{key}' must not contain '/'"
  | sameEnds verb => s!"{verb} source and destination are the same"
  | targetInsideSource verb source target =>
    s!"{verb} destination '{target}' lies inside source '{source}'"
  | rootDeletion => "the repository root cannot be deleted"
  | emptyInclusion => "include target must not be empty"
  | blankInInclusion target => s!"include target '{target}' must not contain whitespace"
  | emptyFlag => "flag name must not be empty"

/-- A problem and the statement it is found in. -/
structure SemanticError where
  origin : Origin
  problem : Problem
  deriving DecidableEq, Repr

namespace SemanticError

/-- The wording of an error. -/
def message (e : SemanticError) : String :=
  e.problem.message

/-- The place and the wording in one line. -/
def describe (e : SemanticError) : String :=
  e.origin.describe ++ ": " ++ e.message

end SemanticError

/-! ## Parts of statements -/

namespace Rules

/-- A path is well-formed. -/
def path (subject p : String) : List Problem :=
  ((Path.problem? p).map (.path subject p)).toList

/-- A character that no id may hold. -/
def isIllegalInId (c : Char) : Bool :=
  Text.isBlank c || Text.isControl c || c == '/'

/-- An id has a character and none that is illegal. -/
def id (subject i : String) : List Problem :=
  if i = "" then [.emptyId subject]
  else ((i.toList.find? isIllegalInId).map (.illegalId subject i)).toList

/-- There is a privilege, and each has a name. -/
def privileges (ps : List String) : List Problem :=
  (if ps = [] then [.noPrivileges] else [])
    ++ (ps.filter Text.isBlankText).map fun _ => .emptyPrivilege

/-- Each restriction has a name that was not `seen` before, and a value. -/
def restrictions : List String → List (String × String) → List Problem
  | _, [] => []
  | seen, (key, value) :: rest =>
    (if key = "" then [.emptyRestriction]
      else if seen.contains key then [.duplicateRestriction key] else [])
      ++ (if value = "" then [.emptyRestrictionValue key] else [])
      ++ restrictions (key :: seen) rest

/-- A transfer goes to a place outside its source. -/
def transfer (verb source target : String) : List Problem :=
  path (verb ++ " source") source ++ path (verb ++ " destination") target
    ++ if source = target then [.sameEnds verb]
      else if Path.within target source then [.targetInsideSource verb source target]
      else []

/-- A member and a group are two principals. -/
def membership (member group : String) : List Problem :=
  id "member id" member ++ id "group id" group
    ++ if member = group then [.selfMembership group] else []

/-- A permission names privileges, a path and a principal. -/
def grant (ps : List String) (p principal : String) : List Problem :=
  privileges ps ++ path "permission path" p ++ id "principal id" principal

/-- A property name has a character and no slash. -/
def propertyName (key : String) : List Problem :=
  if key = "" then [.emptyPropertyName]
  else if key.toList.contains '/' then [.slashInPropertyName key]
  else []

/-- An included script is named, without blanks. -/
def inclusion (target : String) : List Problem :=
  if Text.isBlankText target then [.emptyInclusion]
  else if target.toList.any fun c => Text.isBlank c || Text.isControl c then
    [.blankInInclusion target]
  else []

end Rules

/-! ## Statements -/

/-- The problems of a directive. -/
def Directive.problems : Directive → List Problem
  | create _ id p =>
    Rules.id "principal id" id ++ (p.map (Rules.path "principal path")).getD []
  | addMember member group | removeMember member group => Rules.membership member group
  | permission _ ps p principal rs => Rules.grant ps p principal ++ Rules.restrictions [] rs
  | setProperty p key _ => Rules.path "property path" p ++ Rules.propertyName key
  | copy source target => Rules.transfer "copy" source target
  | move source target => Rules.transfer "move" source target
  | delete p => Rules.path "delete path" p ++ if p = "/" then [.rootDeletion] else []
  | purge p principal =>
    Rules.path "purge path" p ++ (principal.map (Rules.id "principal id")).getD []
  | check (.present id _) | check (.absent id) => Rules.id "principal id" id
  | check (.permission _ ps p principal) => Rules.grant ps p principal

namespace Statement

mutual

/-- The errors of a statement and of the statements in it. -/
def errors : Statement → List SemanticError
  | directive o d => d.problems.map (⟨o, ·⟩)
  | inclusion o target => (Rules.inclusion target).map (⟨o, ·⟩)
  | define o flag _ => if flag = "" then [⟨o, .emptyFlag⟩] else []
  | cond _ _ _ thenBranch elseBranch => errorsOfAll thenBranch ++ errorsOfAll elseBranch

/-- The errors of statements in their order. -/
def errorsOfAll : List Statement → List SemanticError
  | [] => []
  | s :: rest => s.errors ++ errorsOfAll rest

end

end Statement

/-! ## Checked scripts -/

/-- A script whose statements were checked. -/
structure Checked where
  identity : String
  checksum : String
  statements : List Statement
  errors_eq_nil : Statement.errorsOfAll statements = []

/-- The check of the statements of a script; all errors are reported. -/
def Checked.ofScript (script : Script) (statements : List Statement) :
    Except (List SemanticError) Checked :=
  if h : Statement.errorsOfAll statements = [] then
    .ok ⟨script.identity, script.checksum, statements, h⟩
  else .error (Statement.errorsOfAll statements)

end Entitle
