import Entitle.Dialogue
import Entitle.Repository.Call
import Entitle.Run.Outcome

/-!
# Requests of a run

A run of a plan calls a repository, asks whether it has been cancelled, and looks at the clock. How
the repository behaves is not known here: it may refuse any call, or not answer in time.

## Main definitions

* `CallError`: why a call has no answer.
* `Request`, `Request.Reply`: what a run asks, and the types of the replies.
* `Running`, `Attempt`: programs that ask so; the second kind may fail.
* `call`: one call in an attempt.
-/
namespace Entitle

/-- Why a call has no answer. -/
inductive CallError where
  | refused (refusal : Refusal)
  /-- The repository did not answer in time. -/
  | timedOut (afterMs : Nat)
  deriving DecidableEq, Repr

/-- What a run asks. -/
inductive Request where
  | call (c : Call)
  /-- Has the run been cancelled? -/
  | cancelled
  /-- What time is it? -/
  | now
  deriving DecidableEq, Repr

/-- What the requests are replied with. -/
abbrev Request.Reply : Request → Type
  | call c => Except CallError c.Answer
  | cancelled => Bool
  | now => String

/-- Programs that use a repository. -/
abbrev Running := Dialogue Request Request.Reply

/-- Programs that use a repository and may fail. -/
abbrev Attempt := ExceptT Failure Running

/-- The failure that a refusal leads to. -/
def Refusal.failure : Refusal → Failure
  | notFound name => .notFound name
  | conflict reason => .conflict reason
  | rejected reason => .rejected reason

/-- The failure that a call without an answer leads to. -/
def CallError.failure : CallError → Failure
  | refused refusal => refusal.failure
  | timedOut afterMs => .timeout afterMs

/-- One call. Without an answer the attempt fails. -/
def call (c : Call) : Attempt c.Answer :=
  .mk do
    match ← Dialogue.request (Request.call c) with
    | .ok a => pure (.ok a)
    | .error e => pure (.error e.failure)

end Entitle
