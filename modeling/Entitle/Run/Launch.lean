import Entitle.History.Store
import Entitle.Plan.ErrorForm
import Entitle.Run.Execute

/-!
# Recorded runs

A run that is recorded. A version of a script whose newest application succeeded is not applied
again unless that is asked for. An application is committed before it is recorded, so a run whose
changes could not be made durable is not on record and will be repeated.

## Main definitions

* `RunRequest`, `RunReply`: the requests of a run and of a store.
* `RunOptions`: what is given to a run besides the script.
* `RunError`, `RunOutcome`: how a recorded run ends.
* `Plan.launch`: run a plan and record it.
* `launch`: compile a script, run its plan and record it.
-/
namespace Entitle

/-! ## Requests -/

/-- What a recorded run asks: what a run asks, or something of the history. -/
inductive RunRequest where
  | step (r : Request)
  | history (r : History.Request)
  deriving DecidableEq, Repr

/-- What the requests are replied with. -/
abbrev RunReply : RunRequest → Type
  | .step r => r.Reply
  | .history r => History.Reply r

/-- Programs that use a repository and a history. -/
abbrev Recording := Dialogue RunRequest RunReply

/-- A run as a part of a recorded run. -/
def Running.recording {α : Type} (p : Running α) : Recording α :=
  p.interpret fun r => Dialogue.request (RunRequest.step r)

/-- Queries of a history as a part of a recorded run. -/
def History.Query.recording {α : Type} (q : History.Query α) :
    Recording (Except StoreError α) :=
  q.run.interpret fun r => Dialogue.request (RunRequest.history r)

/-! ## Results -/

/-- What is given to a run besides the script and the mode. -/
structure RunOptions where
  /-- The limit of inclusions one inside another. -/
  includeLimit : Nat
  /-- Who asks for the run. -/
  principal : String
  /-- Apply a version again that was applied already. -/
  rerun : Bool
  deriving DecidableEq, Repr

/-- Why there is no run on record. -/
inductive RunError where
  | compile (error : CompileError)
  | history (error : StoreError)
  /-- The plan was applied, but the changes could not be made durable. -/
  | commit (refusal : Refusal)
  deriving DecidableEq, Repr

/-- The wording of a run error. -/
def RunError.message : RunError → String
  | compile error => error.message
  | history error => s!"history lookup failed: {error.message}"
  | commit refusal => s!"cannot commit repository state: {refusal.message}"

/-- The JSON form of a run error, with the wording of its cause. -/
def RunError.toJson : RunError → Json
  | compile error => error.toJson
  | history error => .obj [("kind", .str "history"), ("message", .str error.message)]
  | commit refusal => .obj [("kind", .str "commit"), ("message", .str refusal.message)]

/-- What became of a run that did not end in an error. -/
inductive RunOutcome where
  /-- The plan ran. The record of it was kept, or could not be. -/
  | executed (report : Report) (audit : Except StoreError Record)
  /-- This version was applied already, and nothing was done. -/
  | unchanged (previous : Record)

/-! ## Programs -/

/-- The record of a newest application that makes another one superfluous. -/
def settledBy? (found : Option Record) : Option Record :=
  found.filter (·.summary.status == .success)

/-- Make the changes of an application durable. -/
def commitChanges : Recording (Except Refusal Unit) := do
  match ← Dialogue.request (RunRequest.step (.call .commit)) with
  | .ok () => pure (.ok ())
  | .error (.refused refusal) => pure (.error refusal)
  | .error (.timedOut afterMs) =>
    pure (.error (.rejected s!"commit timed out after {afterMs}ms"))

/-- The record of a report. The store gives it an id. -/
def Report.toRecord (r : Report) (principal : String) (rerun : Bool) (recordedAt : String) :
    Record where
  id := 0
  identity := r.script
  checksum := r.checksum
  mode := r.mode
  summary := r.summary
  principal := principal
  rerun := rerun
  recordedAt := recordedAt

/-- Run a plan, commit the changes of an application, and record the run. The run counts as a
rerun if it is asked for as one or its key is on record already. -/
def Plan.runAndRecord (plan : Plan) (mode : Mode) (options : RunOptions) (repeated : Bool) :
    Recording (Except RunError RunOutcome) := do
  let report ← (plan.execute mode).recording
  let committed ← match mode with
    | .dryRun => pure (.ok ())
    | .apply => commitChanges
  match committed with
  | .error refusal => pure (.error (.commit refusal))
  | .ok () =>
    let recordedAt ← Dialogue.request (RunRequest.step .now)
    let record := report.toRecord options.principal (options.rerun || repeated) recordedAt
    let audit ← (History.record record).recording
    pure (.ok (.executed report audit))

/-- The application that makes this run superfluous, if there is one. -/
def Plan.previous? (plan : Plan) (mode : Mode) (options : RunOptions) :
    Recording (Except StoreError (Option Record)) :=
  if mode = .apply ∧ options.rerun = false then do
    let found ← (History.lookup plan.script plan.checksum).recording
    pure (found.map settledBy?)
  else pure (.ok none)

/-- Run a plan and record it, unless it was applied already. -/
def Plan.launch (plan : Plan) (mode : Mode) (options : RunOptions) :
    Recording (Except RunError RunOutcome) := do
  match ← plan.previous? mode options with
  | .error e => pure (.error (.history e))
  | .ok (some previous) => pure (.ok (.unchanged previous))
  | .ok none =>
    match ← (History.latest plan.script plan.checksum mode).recording with
    | .error e => pure (.error (.history e))
    | .ok found => plan.runAndRecord mode options found.isSome

/-- Compile a script, run its plan and record it. Compiling uses and fills the cache, and asks
nothing. -/
def launch (load : Loader) (cache : Cache) (identifier : String) (mode : Mode)
    (options : RunOptions) : Recording (Except RunError RunOutcome) × Cache :=
  match compileScript load options.includeLimit identifier cache with
  | (.error e, cache') => (pure (.error (.compile e)), cache')
  | (.ok plan, cache') => (plan.launch mode options, cache')

end Entitle
