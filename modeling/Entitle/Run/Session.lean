import Entitle.History.Backend
import Entitle.Run.Fault
import Entitle.Run.Launch

/-!
# Sessions

Recorded runs one after the other, on one repository, one history and one cache, while the scripts
may be edited between them.

## Main definitions

* `Surroundings`: a repository and a store.
* `Surroundings.answer`, `Surroundings.run`: recorded runs on them.
* `Session`: what stays between runs.
* `Session.launch`: one run.
-/
namespace Entitle

/-- A repository and a store, as a recorded run meets them. -/
structure Surroundings where
  bench : Bench
  store : History.Backend
  defect : History.Defect

/-- The replies to the requests of a recorded run. -/
def Surroundings.answer : (r : RunRequest) → StateT Surroundings Hosted (RunReply r)
  | .step r => fun s => do
    let (reply, bench) ← (Bench.answer r).run s.bench
    pure (reply, { s with bench })
  | .history r => fun s => do
    let (reply, store) ← (s.defect.answer History.Backend.answer r).run s.store
    pure (reply, { s with store })

/-- Run a recorded run. -/
def Surroundings.run {α : Type} (p : Recording α) (s : Surroundings) :
    Hosted (α × Surroundings) :=
  (p.interpret answer).run s

/-- What stays between runs. -/
structure Session where
  shelf : Shelf
  cache : Cache
  repository : Repository
  store : History.Backend
  defect : History.Defect

/-- The circumstances of one run of a session. -/
structure Circumstances where
  limitMs : Nat
  /-- The run is cancelled before it begins. -/
  cancelled : Bool
  faults : List Fault

namespace Session

/-- The repository and the store as a run meets them. -/
def surroundings (s : Session) (c : Circumstances) : Surroundings :=
  ⟨⟨s.repository, c.cancelled, c.limitMs, c.faults, []⟩, s.store, s.defect⟩

/-- One run: its result, the calls that were made, and the session after it. -/
def launch (s : Session) (identifier : String) (mode : Mode) (options : RunOptions)
    (c : Circumstances) : Hosted (Except RunError RunOutcome × List String × Session) := do
  let (program, cache) := Entitle.launch s.shelf.load s.cache identifier mode options
  let (result, after) ← (s.surroundings c).run program
  pure (result, after.bench.calls,
    { s with cache, repository := after.bench.repository, store := after.store })

end Session

end Entitle
