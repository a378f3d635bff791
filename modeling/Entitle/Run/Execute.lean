import Entitle.Run.Inspect
import Entitle.Run.Report

/-!
# Running plans

The actions of a plan are taken one after the other. An application makes the changes that are
due and ends at the first failure; a forecast only reads, notes the changes in an overlay, and goes
on after a failure. Before each action it is asked whether the run has been cancelled.

## Main definitions

* `Change.perform`, `Change.foresee`: a due change, made or noted.
* `Action.attempt`, `Action.attempt?`: one action.
* `Runner`: the loop over the actions, for attempts that may break off and for others.
* `PlannedAction.runAll`: the actions of a plan.
* `Plan.execute`, `Plan.execute?`: the report of a run.

## Main statements

* `PlannedAction.length_leaveOut`: actions that are left out still have their entries.
-/
namespace Entitle

/-! ## One change -/

/-- Make a change. -/
def Change.perform (c : Change) : Attempt String := do
  let _ ← Entitle.call c.call
  pure c.done

/-- The node that has to exist above the destination of a change is missing. -/
def Overlay.requireParent (o : Overlay) (path : String) : Attempt Unit :=
  match Path.parent? path with
  | none => pure ()
  | some up => do
    if ← o.hasNode up then pure () else throw (.notFound up)

/-- Note a change that would be made, if it could be. -/
def Change.foresee (o : Overlay) (c : Change) : Attempt Overlay := do
  match c.destination? with
  | none => pure ()
  | some target => o.requireParent target
  pure (c.note o)

/-! ## One action -/

/-- Inspect an action and make the change that is due, or note it. -/
def Action.carryOut (mode : Mode) (o : Overlay) (a : Action) : Attempt (Outcome × Overlay) := do
  match ← a.inspect o with
  | .settled reason => pure (.skipped reason, o)
  | .due change =>
    match mode with
    | .apply => return (.applied (← change.perform), o)
    | .dryRun => return (.applied change.forecast, ← change.foresee o)

/-- The outcome of an action, and the overlay after it. A failure notes nothing. -/
def Action.attempt (mode : Mode) (o : Overlay) (a : Action) : Running (Outcome × Overlay) := do
  match ← (a.carryOut mode o).run with
  | .ok result => pure result
  | .error failure => pure (.failed failure, o)

/-- The same where a reply may leave nothing to go on with: the attempt then breaks off, and there
is neither an outcome nor a failure. -/
def Action.attempt? (mode : Mode) (o : Overlay) (a : Action) :
    OptionT Running (Outcome × Overlay) :=
  .mk ((a.attempt mode o).guarded o.accepts)

/-! ## All actions -/

/-- The entries of actions that are not attempted. -/
def PlannedAction.leaveOut (actions : List PlannedAction) : List ReportEntry :=
  actions.map (⟨·, .notAttempted⟩)

@[simp] theorem PlannedAction.length_leaveOut (actions : List PlannedAction) :
    (leaveOut actions).length = actions.length := by
  simp [leaveOut]

/-- How the steps of a run are made. -/
structure Runner (m : Type → Type) where
  isCancelled : m Bool
  now : m String
  attempt : Mode → Overlay → Action → m (Outcome × Overlay)

namespace Runner

/-- With every reply a step has its result. -/
def plain : Runner Running where
  isCancelled := Dialogue.request Request.cancelled
  now := Dialogue.request Request.now
  attempt mode o a := a.attempt mode o

/-- An attempt may break off, and the run with it. -/
def guarded : Runner (OptionT Running) where
  isCancelled := OptionT.lift plain.isCancelled
  now := OptionT.lift plain.now
  attempt mode o a := a.attempt? mode o

variable {m : Type → Type} [Monad m] (r : Runner m)

/-- The entries of the actions, and whether they were cut short by a cancellation. -/
def runAll (mode : Mode) : Overlay → List PlannedAction → m (List ReportEntry × Bool)
  | _, [] => pure ([], false)
  | o, a :: rest => do
    if ← r.isCancelled then
      pure (PlannedAction.leaveOut (a :: rest), true)
    else
      let (outcome, o') ← r.attempt mode o a.action
      if outcome.isFailed && mode == .apply then
        pure (⟨a, outcome⟩ :: PlannedAction.leaveOut rest, false)
      else
        let (entries, cancelled) ← runAll mode o' rest
        pure (⟨a, outcome⟩ :: entries, cancelled)

/-- Run a plan and report on every action of it. -/
def execute (plan : Plan) (mode : Mode) : m Report := do
  let startedAt ← r.now
  let (entries, cancelled) ← r.runAll mode .empty plan.actions
  let finishedAt ← r.now
  pure {
    script := plan.script, checksum := plan.checksum, mode, cancelled, startedAt, finishedAt,
    entries }

end Runner

/-- The run of the actions of a plan. -/
def PlannedAction.runAll (mode : Mode) (o : Overlay) (actions : List PlannedAction) :
    Running (List ReportEntry × Bool) :=
  Runner.plain.runAll mode o actions

@[simp] theorem PlannedAction.runAll_nil (mode : Mode) (o : Overlay) :
    runAll mode o [] = pure ([], false) := rfl

/-- The run of a plan. With a repository that lists beneath a node nothing but what lies there, this
is all that can happen; `Plan.execute?` is the run with any repository. -/
def Plan.execute (plan : Plan) (mode : Mode) : Running Report :=
  Runner.plain.execute plan mode

/-- The run of a plan, which has no report if it broke off. -/
def Plan.execute? (plan : Plan) (mode : Mode) : Running (Option Report) :=
  (Runner.guarded.execute plan mode).run

end Entitle
