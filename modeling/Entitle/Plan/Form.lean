import Entitle.Json.Shape
import Entitle.Plan.Action

/-!
# The JSON form of plans

A plan is written with its fields in a fixed order, and optional parts are left out when there is
nothing to say. Reading the form of a plan gives the plan again.

## Main definitions

* `Permission.toJson`, `Action.members`, `PlannedAction.toJson`, `Plan.toJson`: writing.
* `Permission.ofJson?`, `Action.ofJson?`, `PlannedAction.ofJson?`, `Plan.ofJson?`: reading.
-/
namespace Entitle

open Json (field optional)

/-- Integers of script positions are below this bound. -/
def positionBound : Nat := UInt32.size

/-- A record that is read as part of a plan may nest no deeper than this. -/
def nestingLimit : Nat := 124

/-! ## Small parts -/

/-- The written form of an origin. -/
def Origin.toJson (o : Origin) : Json :=
  .objOf [field "file" (.str o.file), field "line" (.nat o.line), field "column" (.nat o.column)]

/-- Read an origin. -/
def Origin.ofJson? (j : Json) : Option Origin := do
  let fs ← j.fields? ["file", "line", "column"]
  return ⟨← fs.required "file" Json.asString?,
    ← fs.required "line" (Json.asNatBelow? positionBound),
    ← fs.required "column" (Json.asNatBelow? positionBound)⟩

/-- The written form of a contributing script. -/
def ScriptSource.toJson (s : ScriptSource) : Json :=
  .objOf [field "identity" (.str s.identity), field "checksum" (.str s.checksum)]

/-- Read a contributing script. -/
def ScriptSource.ofJson? (j : Json) : Option ScriptSource := do
  let fs ← j.fields? ["identity", "checksum"]
  return ⟨← fs.required "identity" Json.asString?, ← fs.required "checksum" Json.asString?⟩

/-- Read an effect. -/
def Effect.ofJson? (m : Json.Manner) (j : Json) : Option Effect :=
  j.choice? m [("allow", .allow), ("deny", .deny)]

/-- Read a kind of principal. -/
def PrincipalKind.ofJson? (m : Json.Manner) (j : Json) : Option PrincipalKind :=
  j.choice? m [("user", .user), ("group", .group)]

/-- A set of names as an array. -/
def NameSet.toJson (s : NameSet) : Json :=
  .arr (s.toList.map .str)

/-- A table of texts as an object. -/
def Table.toJson (t : Table String) : Json :=
  .obj (t.entries.map fun (k, v) => (k, .str v))

/-- The form of a collection, unless there is nothing in it. -/
def Json.unlessEmpty (isEmpty : Bool) (j : Json) : Option Json :=
  if isEmpty then none else some j

/-! ## Permissions -/

/-- The written form of a permission; restrictions are left out when there are none. -/
def Permission.toJson (p : Permission) : Json :=
  .objOf [field "principal" (.str p.principal), field "effect" (.str p.effect.name),
    field "privileges" p.privileges.toJson,
    optional "restrictions" (Json.unlessEmpty p.restrictions.isEmpty p.restrictions.toJson)]

/-- Read a permission. -/
def Permission.ofJson? (m : Json.Manner) (j : Json) : Option Permission := do
  let fs ← j.fields? ["principal", "effect", "privileges", "restrictions"]
  return ⟨← fs.required "principal" Json.asString?, ← fs.required "effect" (Effect.ofJson? m),
    ← fs.required "privileges" Json.asNames?,
    ← fs.withDefault "restrictions" .empty (Json.asTable? Json.asString?)⟩

/-- The written form of a grant. -/
def Grant.toJson (g : Grant) : Json :=
  .objOf [field "path" (.str g.path), field "entry" g.entry.toJson]

/-- Read a grant. -/
def Grant.ofJson? (m : Json.Manner) (j : Json) : Option Grant := do
  let fs ← j.fields? ["path", "entry"]
  return ⟨← fs.required "path" Json.asString?, ← fs.required "entry" (Permission.ofJson? m)⟩

/-! ## Actions -/

/-- The kinds of actions in their written form, in a fixed order. -/
inductive ActionKind where
  | ensureUser
  | ensureGroup
  | addMember
  | removeMember
  | setPermission
  | setProperty
  | copy
  | move
  | delete
  | purge
  | checkExists
  | checkNotExists
  | checkPermission
  deriving DecidableEq, Repr

/-- The names of the kinds. -/
def ActionKind.names : List (String × ActionKind) := [
  ("ensure_user", ensureUser), ("ensure_group", ensureGroup), ("add_member", addMember),
  ("remove_member", removeMember), ("set_permission", setPermission),
  ("set_property", setProperty), ("copy", copy), ("move", move), ("delete", delete),
  ("purge", purge), ("check_exists", checkExists), ("check_not_exists", checkNotExists),
  ("check_permission", checkPermission)]

/-- Read a kind. -/
def ActionKind.ofJson? (m : Json.Manner) (j : Json) : Option ActionKind :=
  j.named? m names

/-- The members of the written form of an action, the kind first. -/
def Action.members : Action → List (Option (String × Json))
  | ensure .user id path =>
    [field "kind" (.str "ensure_user"), field "id" (.str id), optional "path" (path.map .str)]
  | ensure .group id path =>
    [field "kind" (.str "ensure_group"), field "id" (.str id), optional "path" (path.map .str)]
  | addMember group member =>
    [field "kind" (.str "add_member"), field "group" (.str group), field "member" (.str member)]
  | removeMember group member =>
    [field "kind" (.str "remove_member"), field "group" (.str group),
      field "member" (.str member)]
  | setPermission path entry =>
    [field "kind" (.str "set_permission"), field "path" (.str path), field "entry" entry.toJson]
  | setProperty path key value =>
    [field "kind" (.str "set_property"), field "path" (.str path), field "key" (.str key),
      field "value" (.str value)]
  | copy source target =>
    [field "kind" (.str "copy"), field "from" (.str source), field "to" (.str target)]
  | move source target =>
    [field "kind" (.str "move"), field "from" (.str source), field "to" (.str target)]
  | delete path => [field "kind" (.str "delete"), field "path" (.str path)]
  | purge path principal keep =>
    [field "kind" (.str "purge"), field "path" (.str path),
      optional "principal" (principal.map .str), field "keep" (.arr (keep.map Grant.toJson))]
  | checkPresent id kind =>
    [field "kind" (.str "check_exists"), field "id" (.str id),
      optional "principal_kind" (kind.map (.str ·.name))]
  | checkAbsent id => [field "kind" (.str "check_not_exists"), field "id" (.str id)]
  | checkPermission path entry =>
    [field "kind" (.str "check_permission"), field "path" (.str path),
      field "entry" entry.toJson]

/-- The written form of an action. -/
def Action.toJson (a : Action) : Json :=
  .objOf a.members

/-- Read the fields of an action of a known kind. They were set aside until the kind was known. -/
def Action.ofFields? (body : Json) : ActionKind → Option Action
  | .ensureUser => do
    let fs ← body.fields? ["id", "path"]
    return .ensure .user (← fs.required "id" Json.asString?)
      (← fs.optional "path" Json.asString?)
  | .ensureGroup => do
    let fs ← body.fields? ["id", "path"]
    return .ensure .group (← fs.required "id" Json.asString?)
      (← fs.optional "path" Json.asString?)
  | .addMember => do
    let fs ← body.fields? ["group", "member"]
    return .addMember (← fs.required "group" Json.asString?)
      (← fs.required "member" Json.asString?)
  | .removeMember => do
    let fs ← body.fields? ["group", "member"]
    return .removeMember (← fs.required "group" Json.asString?)
      (← fs.required "member" Json.asString?)
  | .setPermission => do
    let fs ← body.fields? ["path", "entry"]
    return .setPermission (← fs.required "path" Json.asString?)
      (← fs.required "entry" (Permission.ofJson? .lenient))
  | .setProperty => do
    let fs ← body.fields? ["path", "key", "value"]
    return .setProperty (← fs.required "path" Json.asString?)
      (← fs.required "key" Json.asString?) (← fs.required "value" Json.asString?)
  | .copy => do
    let fs ← body.fields? ["from", "to"]
    return .copy (← fs.required "from" Json.asString?) (← fs.required "to" Json.asString?)
  | .move => do
    let fs ← body.fields? ["from", "to"]
    return .move (← fs.required "from" Json.asString?) (← fs.required "to" Json.asString?)
  | .delete => do
    let fs ← body.fields? ["path"]
    return .delete (← fs.required "path" Json.asString?)
  | .purge => do
    let fs ← body.fields? ["path", "principal", "keep"]
    return .purge (← fs.required "path" Json.asString?)
      (← fs.optional "principal" Json.asString?)
      (← fs.required "keep" (Json.asList? (Grant.ofJson? .lenient)))
  | .checkExists => do
    let fs ← body.fields? ["id", "principal_kind"]
    return .checkPresent (← fs.required "id" Json.asString?)
      (← fs.optional "principal_kind" (PrincipalKind.ofJson? .lenient))
  | .checkNotExists => do
    let fs ← body.fields? ["id"]
    return .checkAbsent (← fs.required "id" Json.asString?)
  | .checkPermission => do
    let fs ← body.fields? ["path", "entry"]
    return .checkPermission (← fs.required "path" Json.asString?)
      (← fs.required "entry" (Permission.ofJson? .lenient))

/-- Read an action. -/
def Action.ofJson? (j : Json) : Option Action := do
  let (kind, body) ← j.tagged? "kind"
  Action.ofFields? body (← ActionKind.ofJson? .strict kind)

/-! ## Plans -/

/-- The written form of a planned action: the members of the action and its origin. -/
def PlannedAction.toJson (a : PlannedAction) : Json :=
  .objOf (a.action.members ++ [field "origin" a.origin.toJson])

/-- Read a planned action. Its members stand beside the origin, so all of them are set aside before
it is known which ones count: none may be unreadable or nest too deeply. -/
def PlannedAction.ofJson? : Json → Option PlannedAction
  | .obj members => do
    let own := members.filter (·.1 != "origin")
    if own.all fun m => m.2.isReadable && decide (m.2.depth ≤ nestingLimit) then
      let fs ← Json.fields? ["origin"] (.obj members)
      let origin ← fs.required "origin" Origin.ofJson?
      let (kind, body) ← Json.tagged? "kind" (.obj own)
      let action ← Action.ofFields? body (← ActionKind.ofJson? .lenient kind)
      return ⟨action, origin⟩
    else none
  | _ => none

/-- The written form of a plan. -/
def Plan.toJson (p : Plan) : Json :=
  .objOf [field "script" (.str p.script), field "checksum" (.str p.checksum),
    field "sources" (.arr (p.sources.map ScriptSource.toJson)),
    field "actions" (.arr (p.actions.map PlannedAction.toJson))]

/-- Read a plan. -/
def Plan.ofJson? (j : Json) : Option Plan := do
  let fs ← j.fields? ["script", "checksum", "sources", "actions"]
  return ⟨← fs.required "script" Json.asString?, ← fs.required "checksum" Json.asString?,
    ← fs.required "sources" (Json.asList? ScriptSource.ofJson?),
    ← fs.required "actions" (Json.asList? PlannedAction.ofJson?)⟩

end Entitle
