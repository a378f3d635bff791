import Entitle.Json.Printer
import Entitle.Json.Reader
import Entitle.Run.Report
import Entitle.Text.Printing

/-!
# History records

What is kept of a run: which version of which script ran in which mode, and how it ended. The first
three are the key of a record.

## Main definitions

* `Record`: a recorded run.
* `Record.sameKey`: the same script, version and mode.
* `Record.toJson`, `Record.ofJson?`: the JSON form.
* `Record.line`, `Record.ofLine?`: a record as a line of a file.
* `Record.dump`: a record with all fields, as messages of checks show it.
-/
namespace Entitle

open Json (field)

/-- A recorded run. The checksum covers the script and all scripts it includes. -/
structure Record where
  /-- Given by the store that keeps the record. -/
  id : Nat
  identity : String
  checksum : String
  mode : Mode
  summary : Summary
  principal : String
  /-- The run was asked for again, or was not the first of its key. -/
  rerun : Bool
  recordedAt : String
  deriving DecidableEq, Repr

namespace Record

/-- The same script, version and mode. -/
def sameKey (a b : Record) : Bool :=
  a.identity == b.identity && a.checksum == b.checksum && a.mode == b.mode

theorem sameKey_iff {a b : Record} : a.sameKey b = true ↔
    a.identity = b.identity ∧ a.checksum = b.checksum ∧ a.mode = b.mode := by
  simp [sameKey, and_assoc]

/-! ## JSON form -/

/-- The written form of a record. -/
def toJson (r : Record) : Json :=
  .objOf [field "id" (.nat r.id), field "identity" (.str r.identity),
    field "checksum" (.str r.checksum), field "mode" (.str r.mode.name),
    field "summary" r.summary.toJson, field "principal" (.str r.principal),
    field "rerun" (.bool r.rerun), field "recorded_at" (.str r.recordedAt)]

/-- Read a record. -/
def ofJson? (j : Json) : Option Record := do
  let fs ← j.fields? ["id", "identity", "checksum", "mode", "summary", "principal", "rerun",
    "recorded_at"]
  return ⟨← fs.required "id" (Json.asNatBelow? wordBound),
    ← fs.required "identity" Json.asString?, ← fs.required "checksum" Json.asString?,
    ← fs.required "mode" Mode.ofJson?, ← fs.required "summary" Summary.ofJson?,
    ← fs.required "principal" Json.asString?, ← fs.required "rerun" Json.asBool?,
    ← fs.required "recorded_at" Json.asString?⟩

/-- The line of a record, with its line feed. -/
def line (r : Record) : String :=
  r.toJson.compact ++ "\n"

/-- The record that a line writes. -/
def ofLine? (line : String) : Option Record :=
  (Json.read? line).bind ofJson?

/-! ## All fields -/

/-- A truth value as a word. -/
def dumpBool (b : Bool) : String :=
  if b then "true" else "false"

/-- A mode as one capitalised word. -/
def dumpMode : Mode → String
  | .dryRun => "DryRun"
  | .apply => "Apply"

/-- A status as one capitalised word. -/
def dumpStatus : Status → String
  | .success => "Success"
  | .partialFailure => "PartialFailure"
  | .failed => "Failed"

/-- A name and fields with their names, in braces. -/
def dumpFields (name : String) (fields : List (String × String)) : String :=
  name ++ " \x7b " ++ ", ".intercalate (fields.map fun (k, v) => k ++ ": " ++ v) ++ " \x7d"

/-- A summary with all its fields. -/
def dumpSummary (s : Summary) : String :=
  dumpFields "ReportSummary" [("status", dumpStatus s.status), ("applied", toString s.applied),
    ("skipped", toString s.skipped), ("failed", toString s.failed),
    ("not_attempted", toString s.notAttempted), ("cancelled", dumpBool s.cancelled)]

/-- A record with all its fields. -/
def dump (r : Record) : String :=
  dumpFields "HistoryRecord" [("id", toString r.id), ("identity", Text.quoted r.identity),
    ("checksum", Text.quoted r.checksum), ("mode", dumpMode r.mode),
    ("summary", dumpSummary r.summary), ("principal", Text.quoted r.principal),
    ("rerun", dumpBool r.rerun), ("recorded_at", Text.quoted r.recordedAt)]

/-- Several records with all their fields, in brackets. -/
def dumpAll (rs : List Record) : String :=
  "[" ++ ", ".intercalate (rs.map dump) ++ "]"

end Record

end Entitle
