/-!
# Outcomes

What became of the actions of a plan. The outcomes of a run, in order, decide its status.

## Main definitions

* `Mode`: forecasts and applications.
* `Failure`, `Outcome`: what became of one action.
* `Status`, `Status.ofOutcomes`: the result of a run.
* `Summary`, `Summary.ofOutcomes`: the outcomes by kind.

## Main statements

* `Summary.total_ofOutcomes`: every outcome is counted once.
-/
namespace Entitle

/-! ## Modes -/

/-- Whether a run only says what it would change, or changes it. -/
inductive Mode where
  | dryRun
  | apply
  deriving DecidableEq, Repr

/-- The word for a mode in messages. -/
def Mode.describe : Mode → String
  | dryRun => "dry-run"
  | apply => "apply"

/-- The other mode. -/
def Mode.other : Mode → Mode
  | dryRun => apply
  | apply => dryRun

/-! ## One action -/

/-- Why an action fails. -/
inductive Failure where
  | rejected (reason : String)
  | notFound (name : String)
  /-- The repository did not answer in time. -/
  | timeout (afterMs : Nat)
  | checkFailed (reason : String)
  | conflict (reason : String)
  deriving DecidableEq, Repr

/-- The wording of a failure. -/
def Failure.describe : Failure → String
  | rejected reason => s!"rejected: {reason}"
  | notFound name => s!"not found: {name}"
  | timeout afterMs => s!"timed out after {afterMs}ms"
  | checkFailed reason => s!"check failed: {reason}"
  | conflict reason => s!"conflict: {reason}"

/-- What became of an action. -/
inductive Outcome where
  | applied (detail : String)
  /-- Nothing had to be done. -/
  | skipped (reason : String)
  | failed (failure : Failure)
  /-- The run ended before the action. -/
  | notAttempted
  deriving DecidableEq, Repr

namespace Outcome

/-- The wording of an outcome. -/
def describe : Outcome → String
  | applied detail => s!"applied ({detail})"
  | skipped reason => s!"skipped ({reason})"
  | failed failure => s!"FAILED ({failure.describe})"
  | notAttempted => "not attempted"

/-- Was something changed, or going to be? -/
def isApplied : Outcome → Bool
  | applied _ => true
  | _ => false

/-- Was there nothing to do? -/
def isSkipped : Outcome → Bool
  | skipped _ => true
  | _ => false

/-- Did the action fail? -/
def isFailed : Outcome → Bool
  | failed _ => true
  | _ => false

/-- Was the action left out? -/
def isNotAttempted : Outcome → Bool
  | notAttempted => true
  | _ => false

end Outcome

/-! ## All actions -/

/-- The result of a run. -/
inductive Status where
  | success
  | partialFailure
  | failed
  deriving DecidableEq, Repr

namespace Status

/-- The words for a status in messages. -/
def describe : Status → String
  | success => "success"
  | partialFailure => "partial failure"
  | failed => "failed"

/-- A run succeeds when nothing failed and it was not cancelled, and it fails as a whole when
nothing went through before the first failure. -/
def ofOutcomes (outcomes : List Outcome) (cancelled : Bool) : Status :=
  if outcomes.any (·.isFailed) then
    let before := outcomes.takeWhile (!·.isFailed)
    if before.any fun o => o.isApplied || o.isSkipped then partialFailure else failed
  else if cancelled then partialFailure
  else success

end Status

/-- The result of a run and how many actions there were of each kind. -/
structure Summary where
  status : Status
  applied : Nat
  skipped : Nat
  failed : Nat
  notAttempted : Nat
  cancelled : Bool
  deriving DecidableEq, Repr

namespace Summary

/-- The summary of the outcomes of a run. -/
def ofOutcomes (outcomes : List Outcome) (cancelled : Bool) : Summary where
  status := .ofOutcomes outcomes cancelled
  applied := outcomes.countP (·.isApplied)
  skipped := outcomes.countP (·.isSkipped)
  failed := outcomes.countP (·.isFailed)
  notAttempted := outcomes.countP (·.isNotAttempted)
  cancelled := cancelled

/-- The number of actions of all kinds. -/
def total (s : Summary) : Nat :=
  s.applied + s.skipped + s.failed + s.notAttempted

/-- Every outcome is counted once. -/
theorem total_ofOutcomes (outcomes : List Outcome) (cancelled : Bool) :
    (ofOutcomes outcomes cancelled).total = outcomes.length := by
  simp only [total, ofOutcomes]
  induction outcomes with
  | nil => rfl
  | cons o rest ih =>
    have one : (if o.isApplied then 1 else 0) + (if o.isSkipped then 1 else 0)
        + (if o.isFailed then 1 else 0) + (if o.isNotAttempted then 1 else 0) = 1 := by
      cases o <;> rfl
    simp only [List.countP_cons, List.length_cons]
    omega

end Summary

end Entitle
