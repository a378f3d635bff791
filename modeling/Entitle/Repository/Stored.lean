import Entitle.Host.FileName
import Entitle.Host.Request
import Entitle.Repository.Call
import Entitle.Repository.Form

/-!
# Repositories with a state

A repository that answers every call from a state it holds. It counts the changes, and if it was
opened from a file, committing writes the state back to that file.

## Main definitions

* `Repository`: a state, the number of changes, and the file it came from.
* `Repository.ofState`, `Repository.load`: new repositories.
* `Repository.save`: write the state to a file.
* `Repository.answer`: the answer to a call.

## Main statements

* `Repository.answer_of_error`: a refused call leaves the repository as it is.
-/
namespace Entitle

/-- A state and the number of successful calls that may have changed it. -/
structure Repository where
  state : State
  mutations : Nat
  file : Option String
  deriving DecidableEq, Repr

namespace Repository

/-- A repository with a state; its tree has a root in any case. -/
def ofState (s : State) : Repository :=
  ⟨s.addNode "/", 0, none⟩

/-- The repository with one more node, and everything above it. -/
def withNode (r : Repository) (path : String) : Repository :=
  { r with state := r.state.addNode path }

/-! ## Files -/

/-- Open a state file. A missing file is an empty repository. -/
def load (file : String) : Hosted (Except Refusal Repository) := do
  match ← Host.readText file with
  | .ok text =>
    match State.ofText? text with
    | some s => pure (.ok ⟨s, 0, some file⟩)
    | none =>
      pure (.error (.rejected s!"invalid state file {file}: not a repository state"))
  | .error e =>
    if e.isMissing then pure (.ok ⟨.initial, 0, some file⟩)
    else pure (.error (.rejected s!"cannot read state file {file}: {e.message}"))

/-- The refusal to write a state file. -/
def cannotWrite (file : String) (e : FileError) : Refusal :=
  .rejected s!"cannot write state file {file}: {e.message}"

/-- Write the state to a file, and create the directories around it. -/
def save (r : Repository) (file : String) : Hosted (Except Refusal Unit) := do
  let made ← match FileName.directory? file with
    | none => pure (.ok ())
    | some directory => Host.ask (.makeDirectory directory)
  match made with
  | .error e => pure (.error (cannotWrite file e))
  | .ok () =>
    match ← Host.ask (.write file r.state.text.toUTF8) with
    | .error e => pure (.error (cannotWrite file e))
    | .ok () => pure (.ok ())

/-! ## Calls -/

/-- The repository after a call that took its state to `s`. -/
def after (r : Repository) (c : Call) (s : State) : Repository :=
  { r with state := s, mutations := if c.mutates then r.mutations + 1 else r.mutations }

/-- The answer to a call of a repository that cannot be committed. -/
def answerNow (r : Repository) (c : Call) : Except Refusal c.Answer × Repository :=
  match r.state.answer c with
  | .error e => (.error e, r)
  | .ok (a, s) => (.ok a, r.after c s)

/-- The answer to a call, and the repository after it. Only committing uses the host. -/
def answer (r : Repository) : (c : Call) → Hosted (Except Refusal c.Answer × Repository)
  | .commit => do
    match r.file with
    | none => pure (.ok (), r)
    | some file => return (← r.save file, r)
  | c => pure (r.answerNow c)

/-- A refused call leaves the repository as it is. -/
theorem answer_of_error {r r' : Repository} {c : Call} {e : Refusal}
    (h : r.answerNow c = (.error e, r')) : r' = r := by
  unfold answerNow at h
  split at h
  · cases h
    rfl
  · simp at h

end Repository

end Entitle
