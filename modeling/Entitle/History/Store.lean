import Entitle.Dialogue
import Entitle.History.Record
import Entitle.Host.Request

/-!
# History stores

A store keeps records and never changes or removes one. It is used through three requests; the
look-ups of the newest record are made of them. Of records with the same key all but the first have
to be marked as reruns.

## Main definitions

* `StoreError`: why a request fails.
* `History.Request`, `History.Reply`: the requests to a store.
* `History.lookup`, `History.lastRun`: the newest application of a version, the newest record of a
  script.
* `History.duplicate?`, `History.newestFirst`, `History.latest`, `History.list`: the rules of stores
  that hold their records in a list, oldest first.
-/
namespace Entitle

/-- Why a request to a store fails. -/
inductive StoreError where
  /-- There is a record with this key, and the new one is not marked as a rerun. -/
  | duplicate (identity checksum : String) (mode : Mode)
  | host (error : FileError)
  /-- A line of the history file is no record. -/
  | corrupt (file : String) (line : Nat)
  | backend (reason : String)
  deriving DecidableEq, Repr

/-- The wording of a store error. -/
def StoreError.message : StoreError → String
  | duplicate identity checksum mode =>
    s!"history already holds a {mode.describe} record for {identity}@{checksum}"
  | host error => s!"history I/O error: {error.message}"
  | corrupt file line => s!"corrupt history file {file} at line {line}: not a history record"
  | backend reason => s!"history backend error: {reason}"

namespace History

/-! ## Requests -/

/-- What a store can be asked. -/
inductive Request where
  /-- Keep a record. The reply is the record with the id it is given. -/
  | record (r : Record)
  /-- The newest record with a key. -/
  | latest (identity checksum : String) (mode : Mode)
  /-- The newest records of a script, the newest first. -/
  | list (identity : String) (limit : Nat)
  deriving DecidableEq, Repr

/-- What a store replies. -/
abbrev Reply : Request → Type
  | .record _ => Except StoreError Record
  | .latest _ _ _ => Except StoreError (Option Record)
  | .list _ _ => Except StoreError (List Record)

/-- Programs that use a store and end with its first error. -/
abbrev Query := ExceptT StoreError (Dialogue Request Reply)

/-- Keep a record. -/
def record (r : Record) : Query Record :=
  .mk (Dialogue.request (Request.record r))

/-- The newest record with a key. -/
def latest (identity checksum : String) (mode : Mode) : Query (Option Record) :=
  .mk (Dialogue.request (Request.latest identity checksum mode))

/-- The newest records of a script. -/
def list (identity : String) (limit : Nat) : Query (List Record) :=
  .mk (Dialogue.request (Request.list identity limit))

/-- The newest application of a version of a script. -/
def lookup (identity checksum : String) : Query (Option Record) :=
  latest identity checksum .apply

/-- The newest record of a script in any mode and version. -/
def lastRun (identity : String) : Query (Option Record) := do
  return (← list identity 1).head?

/-! ## Records in a list -/

/-- The error that forbids a record beside the records of a store. -/
def duplicate? (records : List Record) (r : Record) : Option StoreError :=
  if !r.rerun && records.any (·.sameKey r) then
    some (.duplicate r.identity r.checksum r.mode)
  else none

/-- The records of a script, the newest first. -/
def newestFirst (records : List Record) (identity : String) : List Record :=
  records.reverse.filter (·.identity == identity)

/-- The newest record with a key among the records of a store. -/
def newest? (records : List Record) (identity checksum : String) (mode : Mode) : Option Record :=
  (newestFirst records identity).find? fun r => r.checksum == checksum && r.mode == mode

theorem mem_newestFirst {records : List Record} {identity : String} {r : Record} :
    r ∈ newestFirst records identity ↔ r ∈ records ∧ r.identity = identity := by
  simp [newestFirst]

end History

end Entitle
