import Entitle.Plan.Form
import Entitle.Run.Outcome

/-!
# Reports

The account of a run: one entry for each action of the plan, in order. Status and counts follow
from the entries and from whether the run was cancelled.

## Main definitions

* `ReportEntry`, `Report`: an action with its outcome; all of them with the circumstances.
* `Report.status`, `Report.summary`: the result.
* `Outcome.toJson`, `Outcome.ofJson?`, `Summary.toJson`, `Summary.ofJson?`, `Report.toJson`: JSON
  forms.
-/
namespace Entitle

open Json (field)

/-- An action of a plan and what became of it. -/
structure ReportEntry where
  action : PlannedAction
  outcome : Outcome
  deriving DecidableEq, Repr

/-- The account of a run. The times are texts. -/
structure Report where
  script : String
  checksum : String
  mode : Mode
  cancelled : Bool
  startedAt : String
  finishedAt : String
  entries : List ReportEntry
  deriving DecidableEq, Repr

namespace Report

/-- The outcomes in the order of the plan. -/
def outcomes (r : Report) : List Outcome :=
  r.entries.map (·.outcome)

/-- The result of the run. -/
def status (r : Report) : Status :=
  .ofOutcomes r.outcomes r.cancelled

/-- The result of the run with the numbers of outcomes. -/
def summary (r : Report) : Summary :=
  .ofOutcomes r.outcomes r.cancelled

end Report

/-! ## JSON forms -/

/-- Numbers in files are below this bound. -/
def wordBound : Nat := UInt64.size

/-- The name of a mode in files. -/
def Mode.name : Mode → String
  | dryRun => "dry_run"
  | apply => "apply"

/-- Read a mode. -/
def Mode.ofJson? (j : Json) : Option Mode :=
  j.choice? .strict [("dry_run", .dryRun), ("apply", .apply)]

/-- The name of a status in files. -/
def Status.name : Status → String
  | success => "success"
  | partialFailure => "partial_failure"
  | failed => "failed"

/-- Read a status. -/
def Status.ofJson? (j : Json) : Option Status :=
  j.choice? .strict
    [("success", .success), ("partial_failure", .partialFailure), ("failed", .failed)]

/-- The written form of a failure: its cause beside the detail. -/
def Failure.toJson : Failure → Json
  | rejected reason => .objOf [field "cause" (.str "rejected"), field "detail" (.str reason)]
  | notFound name => .objOf [field "cause" (.str "not_found"), field "detail" (.str name)]
  | timeout afterMs =>
    .objOf [field "cause" (.str "timeout"),
      field "detail" (.objOf [field "after_ms" (.nat afterMs)])]
  | checkFailed reason =>
    .objOf [field "cause" (.str "check_failed"), field "detail" (.str reason)]
  | conflict reason => .objOf [field "cause" (.str "conflict"), field "detail" (.str reason)]

/-- Read the number of milliseconds of a timeout, which has to stand in an object. -/
def Failure.ofTimeout? : Json → Option Failure
  | .obj members => do
    let fs ← Json.fields? ["after_ms"] (.obj members)
    return timeout (← fs.required "after_ms" (Json.asNatBelow? wordBound))
  | _ => none

/-- Read a failure. -/
def Failure.ofJson? (m : Json.Manner) (j : Json) : Option Failure := do
  let (read, detail) ← j.adjacent? m "cause" "detail" [
    ("rejected", fun d => d.asString?.map rejected),
    ("not_found", fun d => d.asString?.map notFound), ("timeout", ofTimeout?),
    ("check_failed", fun d => d.asString?.map checkFailed),
    ("conflict", fun d => d.asString?.map conflict)]
  read (← detail).value

/-- The written form of an outcome: its kind beside the detail. -/
def Outcome.toJson : Outcome → Json
  | applied detail => .objOf [field "outcome" (.str "applied"), field "detail" (.str detail)]
  | skipped reason => .objOf [field "outcome" (.str "skipped"), field "detail" (.str reason)]
  | failed failure => .objOf [field "outcome" (.str "failed"), field "detail" failure.toJson]
  | notAttempted => .objOf [field "outcome" (.str "not_attempted")]

/-- There is nothing beside the tag, or null. -/
def Outcome.ofNoDetail? : Option Json.Content → Option Outcome
  | none | some ⟨_, .null⟩ => some notAttempted
  | some _ => none

/-- Read an outcome. Only an action that was left out has no detail. -/
def Outcome.ofJson? (j : Json) : Option Outcome := do
  let (read, detail) ← j.adjacent? .strict "outcome" "detail" [
    ("applied", fun d : Option Json.Content => (d.bind (·.value.asString?)).map applied),
    ("skipped", fun d => (d.bind (·.value.asString?)).map skipped),
    ("failed", fun d => (d.bind fun c => Failure.ofJson? c.manner c.value).map failed),
    ("not_attempted", ofNoDetail?)]
  read detail

/-- The written form of a summary. -/
def Summary.toJson (s : Summary) : Json :=
  .objOf [field "status" (.str s.status.name), field "applied" (.nat s.applied),
    field "skipped" (.nat s.skipped), field "failed" (.nat s.failed),
    field "not_attempted" (.nat s.notAttempted), field "cancelled" (.bool s.cancelled)]

/-- Read a summary. -/
def Summary.ofJson? (j : Json) : Option Summary := do
  let fs ← j.fields? ["status", "applied", "skipped", "failed", "not_attempted", "cancelled"]
  let count (name : String) : Option Nat := fs.required name (Json.asNatBelow? wordBound)
  return ⟨← fs.required "status" Status.ofJson?, ← count "applied", ← count "skipped",
    ← count "failed", ← count "not_attempted",
    ← fs.withDefault "cancelled" false Json.asBool?⟩

/-- The written form of an entry. -/
def ReportEntry.toJson (e : ReportEntry) : Json :=
  .objOf [field "action" e.action.toJson, field "outcome" e.outcome.toJson]

/-- The written form of a report, with its summary. -/
def Report.toJson (r : Report) : Json :=
  .objOf [field "script" (.str r.script), field "checksum" (.str r.checksum),
    field "mode" (.str r.mode.name), field "status" (.str r.status.name),
    field "cancelled" (.bool r.cancelled), field "started_at" (.str r.startedAt),
    field "finished_at" (.str r.finishedAt),
    field "entries" (.arr (r.entries.map ReportEntry.toJson)),
    field "summary" r.summary.toJson]

end Entitle
