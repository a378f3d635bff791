import Entitle.Json.Value
import Entitle.Plan.Compile

/-!
# The JSON form of compile errors

Errors are written for programs: what kind of error it is, its wording, and the places or scripts
it speaks of.

## Main definitions

* `ParseError.toJson`, `SemanticError.toJson`, `ResolutionError.toJson`, `CompileError.toJson`.
-/
namespace Entitle

open Json (field optional)

/-- The form of an error at a place. -/
def Origin.errorForm (o : Origin) (kind message : String) : Json :=
  .objOf [field "kind" (.str kind), field "file" (.str o.file), field "line" (.nat o.line),
    field "column" (.nat o.column), field "message" (.str message)]

/-- The form of a parse error. -/
def ParseError.toJson (e : ParseError) : Json :=
  e.origin.errorForm "parse" e.message

/-- The form of a semantic error. -/
def SemanticError.toJson (e : SemanticError) : Json :=
  e.origin.errorForm "semantic" e.message

namespace ResolutionError

/-- The scripts of an error that speaks of several. -/
def chain? : ResolutionError → Option (List String)
  | cycle chain => some chain
  | depthExceeded _ chain => some chain
  | _ => none

/-- The errors in an included script. -/
def semanticErrors? : ResolutionError → Option (List SemanticError)
  | includeInvalid _ errors => some errors
  | _ => none

/-- The form of a resolution error. -/
def toJson (e : ResolutionError) : Json :=
  .objOf [field "kind" (.str "resolution"), field "message" (.str e.message),
    optional "chain" (e.chain?.map fun c => .arr (c.map .str)),
    optional "errors" (e.semanticErrors?.map fun es => .arr (es.map SemanticError.toJson))]

end ResolutionError

/-- The form of a compile error. -/
def CompileError.toJson : CompileError → Json
  | load e => .objOf [field "kind" (.str "load"), field "message" (.str e.message)]
  | parse e => e.toJson
  | semantic es =>
    .objOf [field "kind" (.str "semantic"),
      field "errors" (.arr (es.map SemanticError.toJson))]
  | resolution e => e.toJson

end Entitle
