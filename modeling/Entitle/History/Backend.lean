import Entitle.History.Defect
import Entitle.History.Journal

/-!
# Backends

The plainest store is one in memory: its state is the list of its records, oldest first, and ids
count them. It and a journal are the two kinds of stores behind one interface.

## Main definitions

* `History.Memory.append`: a record with its id at the end of a list of records.
* `History.Memory.answer`: the replies of a store in memory.
* `History.Backend`: a store in memory or in a file.
* `History.Backend.answer`: its replies.
* `History.Backend.run`: run a program on a store that may be defective.
-/
namespace Entitle.History

/-! ## Histories in memory -/

namespace Memory

/-- Keep a record under the next id, or say why not. -/
def append (records : List Record) (r : Record) : Except StoreError (Record × List Record) :=
  match duplicate? records r with
  | some e => .error e
  | none =>
    let stored := { r with id := records.length + 1 }
    .ok (stored, records ++ [stored])

/-- The replies of a store whose state is the list of its records. -/
def answer : (r : Request) → StateM (List Record) (Reply r)
  | .record r => fun records =>
    match append records r with
    | .error e => (.error e, records)
    | .ok (stored, records') => (.ok stored, records')
  | .latest identity checksum mode => fun records =>
    (.ok (newest? records identity checksum mode), records)
  | .list identity limit => fun records =>
    (.ok ((newestFirst records identity).take limit), records)

end Memory

/-! ## Both kinds of stores -/

/-- A store in memory, as the list of its records, or in a file. -/
inductive Backend where
  | memory (records : List Record)
  | journal (j : Journal)
  deriving DecidableEq, Repr

namespace Backend

/-- The replies of a store. -/
def answer (r : Request) : StateT Backend Hosted (Reply r)
  | memory records => do
    let (reply, records') := (Memory.answer r).run records
    pure (reply, memory records')
  | journal j => do
    let (reply, j') ← (Journal.answer r).run j
    pure (reply, journal j')

/-- Run a program on a store with a defect. -/
def run {α : Type} (p : Dialogue Request Reply α) (defect : Defect) (b : Backend) :
    Hosted (α × Backend) :=
  (p.interpret (defect.answer answer)).run b

end Backend

end Entitle.History
