import Entitle.Script.Cache

/-!
# Expanded scripts

A script is expanded by putting the directives of every included script in the place of the
inclusion and those of the chosen branch in the place of a condition. Flags are set in the order
of the expansion, through all scripts. What is left is one list of directives, and a list of the
scripts that contributed to it.

## Main definitions

* `ResolutionError`: why an expansion fails.
* `Expansion`: the directives and the contributing scripts.
* `Expansion.ofChecked`: the expansion of a checked script.
* `bundleChecksum`: the digest of all contributing scripts.

## Implementation notes

`room` is the number of scripts that may still be entered one inside another. An inclusion enters
a script with one less, so the expansion ends whatever the scripts are.
-/
namespace Entitle

/-! ## Errors -/

/-- Why an expansion fails. -/
inductive ResolutionError where
  /-- A script includes itself; the chain leads from its first occurrence to the repetition. -/
  | cycle (chain : List String)
  /-- More scripts are included one inside another than the limit allows. -/
  | depthExceeded (limit : Nat) (chain : List String)
  | missingInclude (identifier file : String) (line : Nat)
  | includeParse (identifier : String) (error : ParseError)
  | includeInvalid (identifier : String) (errors : List SemanticError)
  | undefinedFlag (flag file : String) (line : Nat)
  | load (identifier reason : String)
  deriving DecidableEq, Repr

/-- The identities of a chain with arrows between them. -/
def describeChain (chain : List String) : String :=
  " → ".intercalate chain

/-- The wording of a resolution error. -/
def ResolutionError.message : ResolutionError → String
  | cycle chain => s!"include cycle detected: {describeChain chain}"
  | depthExceeded limit chain =>
    s!"include depth limit {limit} exceeded: {describeChain chain}"
  | missingInclude identifier file line =>
    s!"{file}:{line}: included script '{identifier}' not found"
  | includeParse identifier error =>
    s!"included script '{identifier}' failed to parse: {error.describe}"
  | includeInvalid identifier errors =>
    s!"included script '{identifier}' has {errors.length} semantic error(s)"
  | undefinedFlag flag file line =>
    s!"{file}:{line}: flag '{flag}' is used before it is defined"
  | load identifier reason => s!"cannot load included script '{identifier}': {reason}"

/-- Why an included script could not be produced. The including script is not known here. -/
inductive IncludeFailure where
  | notFound
  | invalid (error : ResolutionError)
  | other (reason : String)
  deriving DecidableEq, Repr

/-- The error of an inclusion of `target` at `origin`. -/
def IncludeFailure.at (origin : Origin) (target : String) : IncludeFailure → ResolutionError
  | notFound => .missingInclude target origin.file origin.line
  | invalid error => error
  | other reason => .load target reason

/-! ## Results -/

/-- A script that contributed to an expansion. -/
structure ScriptSource where
  identity : String
  checksum : String
  deriving DecidableEq, Repr

/-- A directive and where it is written. -/
structure Located where
  origin : Origin
  directive : Directive
  deriving DecidableEq, Repr

/-- One list of directives, and the scripts they come from in the order of their first visit. -/
structure Expansion where
  identity : String
  directives : List Located
  sources : List ScriptSource
  deriving DecidableEq, Repr

/-- One contribution to a bundle: the identity, a zero character, the checksum, a line feed. -/
def ScriptSource.frame (s : ScriptSource) : String :=
  s.identity ++ "\x00" ++ s.checksum ++ "\n"

/-- The digest of all contributions, so that an edit of an included script is an edit of the
scripts that include it. -/
def bundleChecksum (sources : List ScriptSource) : String :=
  hexDigest (String.join (sources.map ScriptSource.frame))

/-! ## The expansion -/

/-- What an expansion knows so far: the flags and the scripts that were visited. -/
structure Progress where
  flags : Table Bool
  sources : List ScriptSource
  deriving DecidableEq, Repr

namespace Progress

/-- Nothing was visited. -/
def start : Progress := ⟨.empty, []⟩

/-- Note a script at its first visit. -/
def visit (p : Progress) (s : Checked) : Progress :=
  if p.sources.any (·.identity == s.identity) then p
  else { p with sources := p.sources ++ [⟨s.identity, s.checksum⟩] }

/-- Set a flag. -/
def define (p : Progress) (flag : String) (value : Bool) : Progress :=
  { p with flags := p.flags.insert flag value }

end Progress

/-- Computations of an expansion. The cache outlives an error, the progress does not. -/
abbrev Expanding := StateT Progress (ExceptT ResolutionError (StateM Cache))

/-- The checked script that an identifier leads to. -/
def Cache.include? (load : Loader) (identifier : String) (c : Cache) :
    Except IncludeFailure Checked × Cache :=
  match load identifier with
  | .error (.notFound _) => (.error .notFound, c)
  | .error e => (.error (.other e.message), c)
  | .ok script =>
    match c.check script with
    | (.ok checked, c') => (.ok checked, c')
    | (.error (.parse e), c') => (.error (.invalid (.includeParse identifier e)), c')
    | (.error (.semantic es), c') => (.error (.invalid (.includeInvalid identifier es)), c')

namespace Expansion

/-- The script that an inclusion asks for. -/
def require (load : Loader) (origin : Origin) (target : String) : Expanding Checked :=
  fun progress cache =>
    match cache.include? load target with
    | (.ok checked, cache') => (.ok (checked, progress), cache')
    | (.error failure, cache') => (.error (failure.at origin target), cache')

mutual

/-- The directives of a statement; `enter` gives those of an included script. -/
def ofStatement (enter : Origin → String → Expanding (List Located)) :
    Statement → Expanding (List Located)
  | .directive origin d => pure [⟨origin, d⟩]
  | .inclusion origin target => enter origin target
  | .define _ flag value => do
    modify (·.define flag value)
    pure []
  | .cond origin flag negated thenBranch elseBranch => do
    match (← get).flags.get? flag with
    | none => throw (.undefinedFlag flag origin.file origin.line)
    | some value =>
      if value != negated then ofStatements enter thenBranch else ofStatements enter elseBranch

/-- The directives of statements in their order. -/
def ofStatements (enter : Origin → String → Expanding (List Located)) :
    List Statement → Expanding (List Located)
  | [] => pure []
  | s :: rest => do
    let first ← ofStatement enter s
    let more ← ofStatements enter rest
    pure (first ++ more)

end

/-- The directives of a script that is entered from the scripts of `stack`, the root first. -/
def ofScript (load : Loader) (limit : Nat) :
    (room : Nat) → (stack : List String) → Checked → Expanding (List Located)
  | room, stack, script =>
    if stack.contains script.identity then
      throw (.cycle (stack.dropWhile (· != script.identity) ++ [script.identity]))
    else match room with
      | 0 => throw (.depthExceeded limit (stack ++ [script.identity]))
      | room + 1 => do
        modify (·.visit script)
        ofStatements
          (fun origin target => do
            let included ← require load origin target
            ofScript load limit room (stack ++ [script.identity]) included)
          script.statements

/-- The expansion of a checked script. The limit counts the inclusions one inside another: with
none, only the script itself may be entered. -/
def ofChecked (load : Loader) (limit : Nat) (root : Checked) (cache : Cache) :
    Except ResolutionError Expansion × Cache :=
  match (ofScript load limit (limit + 1) [] root).run .start |>.run cache with
  | (.ok (directives, progress), cache') =>
    (.ok ⟨root.identity, directives, progress.sources⟩, cache')
  | (.error e, cache') => (.error e, cache')

/-- The directives among given statements, as an expansion of them. Statements that only decide
about others contribute none. -/
def ofList (identity : String) (statements : List Statement) (sources : List ScriptSource) :
    Expansion :=
  ⟨identity,
    statements.filterMap fun s =>
      match s with
      | .directive origin d => some ⟨origin, d⟩
      | _ => none,
    sources⟩

end Expansion

end Entitle
