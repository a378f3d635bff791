import Entitle.History.Store

/-!
# Defective stores

Ways in which a store can go wrong, to see what the programs that use it make of them: each turns
the replies of a store into those of a defective one.

## Main definitions

* `Defect`: what is wrong with a store.
* `Defect.answer`: the replies of a store with the defect.
-/
namespace Entitle.History

/-- What is wrong with a store. -/
inductive Defect where
  | none
  /-- No record can be kept. -/
  | failRecord
  | failLatest
  | failList
  /-- Records are accepted and forgotten. -/
  | dropRecord
  /-- Every record is marked as a rerun. -/
  | forceRerun
  /-- The same id is given back for every record. -/
  | fixedId
  /-- Refused duplicates are reported for another script. -/
  | wrongDuplicate
  /-- Nothing is ever found. -/
  | blind
  /-- A record of the other mode is taken for one of the mode asked for. -/
  | anyMode
  | oldestFirst
  | unlimited
  deriving DecidableEq, Repr

/-- A limit that no list of records reaches. -/
def noLimit : Nat := UInt64.size - 1

namespace Defect

variable {m : Type → Type} [Monad m]

/-- The replies of a defective store about a record to keep. -/
def record (inner : (r : Request) → m (Reply r)) (d : Defect) (r : Record) :
    m (Except StoreError Record) := do
  match d with
  | failRecord => pure (.error (.backend "disk full"))
  | dropRecord => pure (.ok r)
  | forceRerun => inner (.record { r with rerun := true })
  | fixedId =>
    let reply ← inner (.record r)
    pure (reply.map ({ · with id := 7 }))
  | wrongDuplicate =>
    match ← inner (.record r) with
    | .error (.duplicate _ checksum mode) => pure (.error (.duplicate "z" checksum mode))
    | reply => pure reply
  | _ => inner (.record r)

/-- The replies of a defective store about the newest record with a key. -/
def latest (inner : (r : Request) → m (Reply r)) (d : Defect) (identity checksum : String)
    (mode : Mode) : m (Except StoreError (Option Record)) := do
  match d with
  | failLatest => pure (.error (.backend "index lost"))
  | blind => pure (.ok Option.none)
  | anyMode =>
    match ← inner (.latest identity checksum mode) with
    | .ok Option.none => inner (.latest identity checksum mode.other)
    | reply => pure reply
  | _ => inner (.latest identity checksum mode)

/-- The replies of a defective store about the newest records. -/
def list (inner : (r : Request) → m (Reply r)) (d : Defect) (identity : String) (limit : Nat) :
    m (Except StoreError (List Record)) := do
  match d with
  | failList => pure (.error (.backend "index lost"))
  | blind => pure (.ok [])
  | oldestFirst =>
    let reply ← inner (.list identity noLimit)
    pure (reply.map fun records => records.reverse.take limit)
  | unlimited => inner (.list identity noLimit)
  | _ => inner (.list identity limit)

/-- The replies of a store with a defect, made of the replies of the store without it. -/
def answer (inner : (r : Request) → m (Reply r)) (d : Defect) : (r : Request) → m (Reply r)
  | .record r => d.record inner r
  | .latest identity checksum mode => d.latest inner identity checksum mode
  | .list identity limit => d.list inner identity limit

end Defect

end Entitle.History
