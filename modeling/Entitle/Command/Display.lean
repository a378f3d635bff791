import Entitle.Command.Arguments
import Entitle.History.Record
import Entitle.Json.Printer
import Entitle.Plan.ErrorForm
import Entitle.Run.Launch
import Entitle.Text.Printing

/-!
# What commands print

Results go to the output and errors to the error output, as text for people or as JSON for programs.
Asked to be quiet, a command keeps to itself what is not the very thing that it was asked for.

## Main definitions

* `Response`: an exit code and what is printed.
* `Options.complaint`: a message on the error output.
* `Options.ofCompileError`, `Options.ofRunError`, `Options.ofRun`, `Options.ofCheck`, `ofPlan`,
  `Options.ofRecords`: the responses of the commands.
-/
namespace Entitle.Command

open Text (padRight padLeft unlines)

/-- What is left of a command when it is done. -/
structure Response where
  code : Nat
  /-- What goes to the output. -/
  out : String
  /-- What goes to the error output. -/
  err : String
  deriving DecidableEq, Repr

/-- The exit code of a command that could not do its work. -/
def notDone : Nat := 1

/-- The exit code of a run without full success, and of a refusal of the arguments. -/
def notFullyDone : Nat := 2

/-- A response that prints to the output. -/
def Response.printing (out : String) : Response := ⟨0, out, ""⟩

/-- An indented JSON value with a line feed. -/
def document (j : Json) : String :=
  unlines [j.pretty]

/-- The number of bytes of a checksum that people are shown. -/
def shownBytes : Nat := 12

/-- A checksum as people are shown it. -/
def shownChecksum (checksum : String) : String :=
  Text.leading shownBytes checksum

/-! ## Errors -/

/-- A message on the error output, unless the command is to be quiet. -/
def Options.complaint (o : Options) (message : String) : String :=
  if o.quiet then ""
  else match o.form with
    | .text => unlines [message]
    | .json => unlines [(Json.obj [("error", .str message)]).compact]

/-- The response of a command that could not do its work. -/
def Options.failure (o : Options) (message : String) : Response :=
  ⟨notDone, "", o.complaint message⟩

/-- The messages of a compile error for people: all errors of a script that is not valid. -/
def compileMessages : CompileError → List String
  | .semantic errors => errors.map (·.describe)
  | .resolution (.includeInvalid identifier errors) =>
    s!"included script '{identifier}' is invalid:" :: errors.map fun e => s!"  {e.describe}"
  | e => [e.message]

/-- The response to a compile error. Programs are told of it even by a quiet command. -/
def Options.ofCompileError (o : Options) (e : CompileError) : Response :=
  ⟨notDone, "", match o.form with
    | .json => document e.toJson.sortKeys
    | .text => String.join ((compileMessages e).map o.complaint)⟩

/-- The response to a run that did not take place. -/
def Options.ofRunError (o : Options) : RunError → Response
  | .compile e => o.ofCompileError e
  | e =>
    match o.form with
    | .json => ⟨notDone, "", unlines [e.toJson.sortKeys.compact]⟩
    | .text => o.failure e.message

/-! ## Plans -/

/-- The response to a plan that is to be shown. -/
def ofPlan (p : Plan) : Response :=
  .printing (document p.toJson)

/-- What a check says about the plan of a script. -/
def checkLine (p : Plan) : String :=
  let ending := if p.sources.length = 1 then "" else "s"
  s!"ok {p.script} {p.checksum} ({p.actions.length} actions from {p.sources.length} script{ending})"

/-- What a check says about the plan of a script, for programs. -/
def checkForm (p : Plan) : Json :=
  .obj [("valid", .bool true), ("script", .str p.script), ("checksum", .str p.checksum),
    ("actions", .nat p.actions.length), ("sources", .arr (p.sources.map ScriptSource.toJson))]

/-- The response to a script that is valid. -/
def Options.ofCheck (o : Options) (p : Plan) : Response :=
  if o.quiet then .printing ""
  else match o.form with
    | .text => .printing (unlines [checkLine p])
    | .json => .printing (document (checkForm p).sortKeys)

/-! ## Runs -/

/-- The line on an entry of a report. -/
def entryLine (number : Nat) (e : ReportEntry) : String :=
  s!"  {padLeft 3 (toString number)}. {padRight 48 e.action.action.describe} {e.outcome.describe}"

/-- The line on the result of a run. -/
def summaryLine (s : Summary) : String :=
  let ending := if s.cancelled then ", cancelled" else ""
  s!"status: {s.status.describe} ({s.applied} applied, {s.skipped} skipped, " ++
    s!"{s.failed} failed, {s.notAttempted} not attempted{ending})"

/-- A report for people. -/
def reportLines (r : Report) : List String :=
  s!"{r.mode.describe} {r.script} (checksum {shownChecksum r.checksum})" ::
    r.entries.zipIdx.map (fun (e, i) => entryLine (i + 1) e) ++ [summaryLine r.summary]

/-- What became of the record of a run, for programs. -/
def auditForm : Except StoreError Record → Json
  | .ok r => .obj [("recorded", .nat r.id)]
  | .error e => .obj [("write_failed", .str e.message)]

/-- What a run prints. -/
def Options.reportText (o : Options) (r : Report) (audit : Except StoreError Record) : String :=
  match o.form with
  | .text => unlines (reportLines r)
  | .json =>
    document (Json.obj [("report", r.toJson), ("audit", auditForm audit)]).sortKeys

/-- What is printed for a version that was applied already. -/
def Options.unchangedText (o : Options) (previous : Record) : String :=
  match o.form with
  | .text =>
    unlines [s!"{previous.identity} unchanged since record #{previous.id} " ++
      s!"({previous.recordedAt}); use --rerun to apply again"]
  | .json =>
    document (Json.obj [("unchanged", .bool true), ("previous", previous.toJson)]).sortKeys

/-- The response to a run. -/
def Options.ofRun (o : Options) : Except RunError RunOutcome → Response
  | .error e => o.ofRunError e
  | .ok (.unchanged previous) => .printing (if o.quiet then "" else o.unchangedText previous)
  | .ok (.executed report audit) =>
    ⟨if report.status = .success then 0 else notFullyDone,
      if o.quiet then "" else o.reportText report audit, ""⟩

/-! ## Histories -/

/-- The line on a record. -/
def recordLine (r : Record) : String :=
  let ending := if r.rerun then "  (rerun)" else ""
  s!"#{padRight 4 (toString r.id)} {r.recordedAt}  {padRight 8 r.mode.describe} " ++
    s!"{padRight 16 r.summary.status.describe} {padRight 12 r.principal} " ++
    s!"{shownChecksum r.checksum}{ending}"

/-- The response to the records of a script. -/
def Options.ofRecords (o : Options) (identity : String) (records : List Record) : Response :=
  match o.form with
  | .json => .printing (document (.arr (records.map Record.toJson)))
  | .text =>
    if records.isEmpty then
      .printing (if o.quiet then "" else unlines [s!"no recorded executions of {identity}"])
    else .printing (unlines (records.map recordLine))

end Entitle.Command
