import Entitle.Host.FileName
import Entitle.Host.Request
import Entitle.Plan.Compile

/-!
# Scripts in folders

Scripts can be kept as files in a folder. An identifier leads to the file of its identity, and the
file has to lie in the folder when all links are followed.

Compiling needs a loader that replies at once. So the scripts that an expansion may need are read
first, following the inclusions of each script that was read.

## Main definitions

* `Folder.fileName`, `Folder.load`: the file of an identity, and the script in it.
* `Statement.inclusions`: the identifiers that statements include, in both branches of conditions.
* `Folder.gather`: the scripts that a script may need.
* `Folder.compile`: the plan of a script in a folder.

## Implementation notes

An expansion never asks for a script that is more than one inclusion beyond the limit, so that many
rounds of reading are enough. They end early when a round asks for nothing new.
-/
namespace Entitle

/-! ## Inclusions -/

namespace Statement

mutual

/-- The identifiers that a statement includes. -/
def inclusions : Statement → List String
  | directive _ _ => []
  | inclusion _ target => [target]
  | define _ _ _ => []
  | cond _ _ _ thenBranch elseBranch => inclusionsOfAll thenBranch ++ inclusionsOfAll elseBranch

/-- The identifiers that statements include. -/
def inclusionsOfAll : List Statement → List String
  | [] => []
  | s :: rest => s.inclusions ++ inclusionsOfAll rest

end

end Statement

/-- The identifiers that a script includes. A script that cannot be parsed includes none. -/
def Script.inclusions (s : Script) : List String :=
  match Grammar.parse s.identity s.source with
  | .ok statements => Statement.inclusionsOfAll statements
  | .error _ => []

namespace Folder

/-! ## One script -/

/-- The name of a file in a folder. -/
def join (folder name : String) : String :=
  if folder = "" then name
  else if folder.toList.getLast? = some '/' then folder ++ name
  else folder ++ "/" ++ name

/-- The name of the file of an identity. -/
def fileName (folder identity : String) : String :=
  join folder (identity ++ String.ofList Identity.extension)

/-- The error that a file error makes of an identifier. -/
def unreadable (identifier : String) (e : FileError) : LoadError :=
  .unreadable identifier e.message

/-- The script of an identity, from the real name of its file. -/
def loadFrom (folder identifier identity file : String) : Hosted (Except LoadError Script) := do
  match ← Host.ask (.realName folder) with
  | .error e => pure (.error (unreadable identifier e))
  | .ok root =>
    if !Path.within file root then pure (.error (.escapesRoot identifier))
    else match ← Host.readText file with
      | .error e => pure (.error (unreadable identifier e))
      | .ok text => pure (.ok (.ofText identity text))

/-- The script that an identifier leads to. -/
def load (folder identifier : String) : Hosted (Except LoadError Script) := do
  match Identity.ofIdentifier? identifier with
  | none => pure (.error (.escapesRoot identifier))
  | some identity =>
    match ← Host.ask (.realName (fileName folder identity)) with
    | .ok file => loadFrom folder identifier identity file
    | .error e =>
      if e.isMissing then pure (.error (.notFound identifier))
      else pure (.error (unreadable identifier e))

/-! ## All scripts -/

/-- What is known of identifiers. -/
abbrev Known := Table (Except LoadError Script)

/-- Read the scripts of identifiers that nothing is known of. The identifiers that the new scripts
include are the second result. -/
def loadNew (folder : String) : List String → Known → Hosted (Known × List String)
  | [], known => pure (known, [])
  | identifier :: rest, known => do
    if known.contains identifier then loadNew folder rest known
    else
      let result ← load folder identifier
      let targets := (result.toOption.map (·.inclusions)).getD []
      let (known', more) ← loadNew folder rest (known.insert identifier result)
      pure (known', targets ++ more)

/-- Read scripts in rounds, each time those that the scripts of the last round include. -/
def gather (folder : String) : (rounds : Nat) → List String → Known → Hosted Known
  | 0, _, known => pure known
  | rounds + 1, wanted, known => do
    match ← loadNew folder wanted known with
    | (known', []) => pure known'
    | (known', more) => gather folder rounds more known'

/-- The loader that replies with what is known. -/
def loader (known : Known) : Loader := fun identifier =>
  (known.get? identifier).getD (.error (.notFound identifier))

/-- A loader for a script and the scripts that its expansion may need. -/
def loaderFor (folder : String) (limit : Nat) (identifier : String) : Hosted Loader := do
  let known ← gather folder (limit + 2) [identifier] .empty
  pure (loader known)

/-- The plan of a script in a folder. -/
def compile (folder : String) (limit : Nat) (identifier : String) :
    Hosted (Except CompileError Plan) := do
  let load ← loaderFor folder limit identifier
  pure (compileScript load limit identifier .empty).1

end Folder

end Entitle
