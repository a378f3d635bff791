import Entitle.Json.Schema
import Entitle.Plan.Form

/-!
# The schema of plans

What other programs may rely on when they read the JSON form of a plan.

## Main definitions

* `Action.schema`: the schema of an action, by its kind.
* `Plan.schema`: the schema of a plan.
-/
namespace Entitle

open Json (Schema Pattern)
open Json.Schema (closed name matching arrayOf)

/-- A digest in lowercase hexadecimal digits. -/
def Digest.schema : Schema :=
  matching (.whole (fun c => ('0' ≤ c && c ≤ '9') || ('a' ≤ c && c ≤ 'f')) 64 (some 64))

/-- A path. -/
def Path.schema : Schema :=
  matching (.starts '/')

/-- The id of a principal: neither blanks nor slashes. -/
def Principal.idSchema : Schema :=
  matching (.whole (fun c => !(Text.isBlank c || c == '/')) 1 none)

/-- An origin. -/
def Origin.schema : Schema :=
  closed ["file", "line", "column"] [("file", .type .string),
    ("line", .all [.type .integer, .minimum 1]), ("column", .all [.type .integer, .minimum 1])]

/-- A contributing script. -/
def ScriptSource.schema : Schema :=
  closed ["identity", "checksum"] [("identity", name), ("checksum", Digest.schema)]

/-- A set with a name, in an array without repetition. -/
def NameSet.schema : Schema :=
  .all [.type .array, .minItems 1, .uniqueItems, .items name]

/-- A table of texts that are not empty. -/
def Table.schema : Schema :=
  .all [.type .object, .additional [] name]

/-- A permission. -/
def Permission.schema : Schema :=
  closed ["principal", "effect", "privileges"] [("principal", Principal.idSchema),
    ("effect", .enum ["allow", "deny"]), ("privileges", NameSet.schema),
    ("restrictions", Table.schema)]

/-- A grant. -/
def Grant.schema : Schema :=
  closed ["path", "entry"] [("path", Path.schema), ("entry", Permission.schema)]

namespace Action

/-- The schema of the actions of some kinds: members that are required, and the schemas of
members. -/
def caseSchema (kinds required : List String) (known : List (String × Schema)) : Schema :=
  .ifThen (.properties [("kind", .enum kinds)]) (.all [.required required, .properties known])

/-- An action. Other members than those that are named are allowed. -/
def schema : Schema :=
  .all [.type .object, .required ["kind", "origin"],
    .properties [("kind", .enum (ActionKind.names.map (·.1))), ("origin", Origin.schema)],
    .all [
      caseSchema ["ensure_user", "ensure_group"] ["id"]
        [("id", Principal.idSchema), ("path", Path.schema)],
      caseSchema ["add_member", "remove_member"] ["group", "member"]
        [("group", Principal.idSchema), ("member", Principal.idSchema)],
      caseSchema ["set_permission", "check_permission"] ["path", "entry"]
        [("path", Path.schema), ("entry", Permission.schema)],
      caseSchema ["set_property"] ["path", "key", "value"]
        [("path", Path.schema), ("key", name)],
      caseSchema ["copy", "move"] ["from", "to"] [("from", Path.schema), ("to", Path.schema)],
      caseSchema ["delete"] ["path"] [("path", Path.schema)],
      caseSchema ["purge"] ["path", "keep"] [("path", Path.schema),
        ("principal", Principal.idSchema), ("keep", arrayOf Grant.schema)],
      caseSchema ["check_exists", "check_not_exists"] ["id"]
        [("id", Principal.idSchema), ("principal_kind", .enum ["user", "group"])]]]

end Action

/-- A plan. -/
def Plan.schema : Schema :=
  closed ["script", "checksum", "sources", "actions"] [("script", name),
    ("checksum", Digest.schema),
    ("sources", .all [.type .array, .minItems 1, .items ScriptSource.schema]),
    ("actions", arrayOf Action.schema)]

end Entitle
