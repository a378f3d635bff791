import Entitle.Plan.Action

/-!
# Compiling scripts to plans

Each directive of an expanded script comes down to one action. Only a purge depends on the other
directives: it keeps what the script itself grants or denies in its place.

## Main definitions

* `Expansion.grants`: every permission that a script declares.
* `Action.ofDirective`: the action of a directive.
* `Plan.ofExpansion`: the plan of an expanded script.
* `CompileError`: what keeps a script from its plan.
* `compileScript`, `compileSource`: all steps from a script to its plan.
-/
namespace Entitle

/-! ## Lowering -/

/-- The permission that a directive declares, if it declares one. -/
def Directive.grant? : Directive → Option Grant
  | permission effect ps path principal rs => some ⟨path, .ofLists principal effect ps rs⟩
  | _ => none

/-- Every permission that the directives declare, in their order. -/
def Expansion.grants (directives : List Located) : List Grant :=
  directives.filterMap (·.directive.grant?)

/-- A purge at `path` for `principal` concerns the grant. -/
def Grant.concerns (path : String) (principal : Option String) (g : Grant) : Bool :=
  Path.within g.path path && principal.all (· == g.entry.principal)

/-- The action of a directive of a script that declares `grants`. -/
def Action.ofDirective (grants : List Grant) : Directive → Action
  | .create kind id path => .ensure kind id path
  | .addMember member group => .addMember group member
  | .removeMember member group => .removeMember group member
  | .permission effect ps path principal rs =>
    .setPermission path (.ofLists principal effect ps rs)
  | .setProperty path key value => .setProperty path key value
  | .copy source target => .copy source target
  | .move source target => .move source target
  | .delete path => .delete path
  | .purge path principal =>
    .purge path principal (Grant.sortedOf (grants.filter (Grant.concerns path principal)))
  | .check (.present id kind) => .checkPresent id kind
  | .check (.absent id) => .checkAbsent id
  | .check (.permission effect ps path principal) =>
    .checkPermission path (.ofLists principal effect ps [])

/-- The plan of an expanded script: one action for each directive. -/
def Plan.ofExpansion (e : Expansion) : Plan where
  script := e.identity
  checksum := bundleChecksum e.sources
  sources := e.sources
  actions := e.directives.map fun d =>
    ⟨Action.ofDirective (Expansion.grants e.directives) d.directive, d.origin⟩

/-! ## From a script to its plan -/

/-- What keeps a script from its plan. -/
inductive CompileError where
  | load (error : LoadError)
  | parse (error : ParseError)
  | semantic (errors : List SemanticError)
  | resolution (error : ResolutionError)
  deriving DecidableEq, Repr

/-- The wording of a compile error; of several semantic errors it shows the first. -/
def CompileError.message : CompileError → String
  | load e => e.message
  | parse e => e.describe
  | semantic es =>
    let first := (es.head?.map (·.describe)).getD ""
    s!"{es.length} semantic error(s), first: {first}"
  | resolution e => e.message

/-- The limit of inclusions one inside another, unless another one is given. -/
def defaultIncludeLimit : Nat := 16

/-- The plan of a script that is already loaded. Its inclusions go through the loader and the
cache. -/
def compileLoaded (load : Loader) (limit : Nat) (script : Script) (cache : Cache) :
    Except CompileError Plan × Cache :=
  match cache.check script with
  | (.error (.parse e), cache') => (.error (.parse e), cache')
  | (.error (.semantic es), cache') => (.error (.semantic es), cache')
  | (.ok root, cache') =>
    match Expansion.ofChecked load limit root cache' with
    | (.error e, cache'') => (.error (.resolution e), cache'')
    | (.ok expansion, cache'') => (.ok (.ofExpansion expansion), cache'')

/-- The plan of the script that an identifier leads to. -/
def compileScript (load : Loader) (limit : Nat) (identifier : String) (cache : Cache) :
    Except CompileError Plan × Cache :=
  match load identifier with
  | .error e => (.error (.load e), cache)
  | .ok script => compileLoaded load limit script cache

/-- The plan of a single text, which can include no other script. -/
def compileSource (identity text : String) : Except CompileError Plan :=
  (compileLoaded Shelf.empty.load defaultIncludeLimit (.ofText identity text) .empty).1

end Entitle
