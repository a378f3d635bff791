import Entitle.Host.Request
import Entitle.Repository.Stored
import Entitle.Run.Request
import Entitle.Text.Lines

/-!
# Runs on a repository

How the requests of a run are replied to: calls go to a repository with a state, and all calls are
noted. Faults can be planned, to see what a run makes of a repository that refuses a call, does not
answer, or is cancelled while it works.

## Main definitions

* `Call.words`, `Call.describe`: a call as it is noted.
* `Fault`, `Fault.strike`: planned faults, and the one that strikes a call.
* `Bench`: a repository with planned faults and a cancellation.
* `Bench.answer`: the replies to the requests of a run.
-/
namespace Entitle

/-! ## Calls in words -/

/-- The name of a call and its arguments. Of permissions only the paths are shown. -/
def Call.words : Call → String × List String
  | principal id => ("principal", [id])
  | ensurePrincipal _ id _ => ("ensure_principal", [id])
  | addMember group member => ("add_member", [group, member])
  | removeMember group member => ("remove_member", [group, member])
  | readPermissions path => ("read_permissions", [path])
  | setPermission path _ => ("set_permission", [path])
  | revokePermissions batch => ("revoke_permissions", batch.map (·.path))
  | descendants path => ("descendants", [path])
  | nodeExists path => ("node_exists", [path])
  | property path key => ("property", [path, key])
  | setProperty path key _ => ("set_property", [path, key])
  | copy source target => ("copy", [source, target])
  | move source target => ("move_node", [source, target])
  | delete path => ("delete", [path])
  | commit => ("commit", [])

/-- A call in one line, without blanks at the end. -/
def Call.describe (c : Call) : String :=
  let (name, arguments) := c.words
  String.ofList (Text.trimEnd (" ".intercalate (name :: arguments)).toList)

/-! ## Faults -/

/-- What a fault does to a call. -/
inductive FaultKind where
  | refuse (refusal : Refusal)
  /-- The call is not answered. -/
  | stall
  /-- The run is cancelled, and the call goes through. -/
  | cancel
  deriving DecidableEq, Repr

/-- A planned fault. It strikes the calls of a name, with a certain argument if one is given, after
the first `skip` of them. -/
structure Fault where
  call : String
  argument : Option String
  skip : Nat
  kind : FaultKind
  deriving DecidableEq, Repr

namespace Fault

/-- Is the fault meant for this call? -/
def concerns (f : Fault) (c : Call) : Bool :=
  f.call == c.words.1 && f.argument.all c.words.2.contains

/-- The kind of the first fault that strikes a call, if one does, and the faults after it. A fault
that is meant for the call and has calls to skip counts this one. -/
def strike (c : Call) : List Fault → Option FaultKind × List Fault
  | [] => (none, [])
  | f :: rest =>
    if f.concerns c then
      if f.skip = 0 then (some f.kind, f :: rest)
      else
        let (kind, rest') := strike c rest
        (kind, { f with skip := f.skip - 1 } :: rest')
    else
      let (kind, rest') := strike c rest
      (kind, f :: rest')

end Fault

/-! ## Replies -/

/-- A repository as a run meets it. -/
structure Bench where
  repository : Repository
  /-- The run has been cancelled. -/
  cancelled : Bool
  /-- The number of milliseconds after which a call counts as unanswered. -/
  limitMs : Nat
  faults : List Fault
  /-- The calls that were made, in order. -/
  calls : List String
  deriving DecidableEq, Repr

namespace Bench

/-- A repository without faults. -/
def ofRepository (r : Repository) (limitMs : Nat) : Bench :=
  ⟨r, false, limitMs, [], []⟩

/-- The reply of the repository itself. -/
def reach (c : Call) : StateT Bench Hosted (Except CallError c.Answer) := fun b => do
  let (reply, r) ← b.repository.answer c
  pure (reply.mapError .refused, { b with repository := r })

/-- The reply to a call: a fault that strikes comes before the repository. -/
def answerCall (c : Call) : StateT Bench Hosted (Except CallError c.Answer) := do
  let b ← get
  let (struck, faults) := Fault.strike c b.faults
  set { b with faults, calls := b.calls ++ [c.describe] }
  match struck with
  | some (.refuse refusal) => pure (.error (.refused refusal))
  | some .stall => pure (.error (.timedOut b.limitMs))
  | some .cancel => do
    modify ({ · with cancelled := true })
    reach c
  | none => reach c

/-- The replies to the requests of a run. -/
def answer : (r : Request) → StateT Bench Hosted r.Reply
  | .call c => answerCall c
  | .cancelled => return (← get).cancelled
  | .now => do
    let instant ← (Host.ask .now : Hosted Instant)
    pure instant.text

/-- Run a program on a repository. -/
def run {α : Type} (p : Running α) (b : Bench) : Hosted (α × Bench) :=
  (p.interpret answer).run b

end Bench

end Entitle
