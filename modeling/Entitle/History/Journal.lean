import Entitle.History.Store
import Entitle.Host.FileName
import Entitle.Text.Lines

/-!
# Histories in files

A journal is a file with one record on each line, which is only ever appended to. Every append ends
with a line feed, so an unfinished last line is what an interrupted append has left: it does not
count, and it is cut off before the next append.

## Main definitions

* `Journal`: an open history file and the records in it.
* `Journal.completePart`: a text up to its last line feed.
* `Journal.readLines`: the records of complete lines.
* `Journal.load`: open a file.
* `Journal.append`, `Journal.answer`: the replies of the store.

## Implementation notes

The store answers look-ups from the records it holds; a record is added to them only after its line
is on the disk. When an append fails, the file is cut back to its length before.
-/
namespace Entitle

/-- An open history file. -/
structure Journal where
  file : String
  /-- The records in the file, oldest first. -/
  records : List Record
  /-- The number of bytes of the complete lines, if an unfinished line follows them. -/
  tornAt : Option Nat
  deriving DecidableEq, Repr

namespace Journal

/-! ## Reading -/

/-- A text up to its last line feed, line feed included. -/
def completePart (text : List Char) : List Char :=
  Text.dropEndWhile (· != '\n') text

/-- The records of lines, the first of which has the number `n`. Blank lines are passed over; the
number of the first line that is no record is the error. -/
def readLines : Nat → List (List Char) → Except Nat (List Record)
  | _, [] => .ok []
  | n, line :: rest =>
    if line.all Text.isBlank then readLines (n + 1) rest
    else match Record.ofLine? (String.ofList line) with
      | none => .error n
      | some r => (readLines (n + 1) rest).map (r :: ·)

/-- The journal of a file with a text. -/
def ofText (file text : String) : Except StoreError Journal :=
  let complete := completePart text.toList
  match readLines 1 (Text.lines complete) with
  | .error line => .error (.corrupt file line)
  | .ok records =>
    let length := (String.ofList complete).utf8ByteSize
    .ok ⟨file, records, if length < text.utf8ByteSize then some length else none⟩

/-- Open a history file. A missing file is an empty history and is not created. -/
def load (file : String) : Hosted (Except StoreError Journal) := do
  match ← Host.readText file with
  | .ok text => pure (ofText file text)
  | .error e => if e.isMissing then pure (.ok ⟨file, [], none⟩) else pure (.error (.host e))

/-! ## Appending -/

/-- The id of the next record: one more than the greatest id, as a word of 64 bits. -/
def nextId (records : List Record) : Nat :=
  ((records.map (·.id)).foldl max 0 + 1) % wordBound

/-- A step of an append; a refusal of the host ends it. -/
abbrev Step := ExceptT StoreError Hosted

/-- Ask the host for something that has no result. -/
def step {α : Type} (r : Hosted (Except FileError α)) : Step α :=
  .mk do
    match ← r with
    | .ok a => pure (.ok a)
    | .error e => pure (.error (.host e))

/-- Append a line and wait until it is on the disk, or cut the file back. -/
def appendLine (file line : String) : Step Unit := do
  let before ← step (Host.ask (.length file))
  let written : Hosted (Except FileError Unit) := do
    match ← Host.ask (.append file line.toUTF8) with
    | .error e => pure (.error e)
    | .ok () => Host.ask (.sync file)
  .mk do
    match ← written with
    | .ok () => pure (.ok ())
    | .error e =>
      let _ ← Host.ask (.setLength file before)
      pure (.error (.host e))

/-- Open the file for an append, with the directories around it. -/
def prepare (file : String) : Step Unit := do
  match FileName.directory? file with
  | none => pure ()
  | some directory => step (Host.ask (.makeDirectory directory))
  step (Host.ask (.openAppend file))

/-- Cut off an unfinished line. -/
def cutTorn (j : Journal) : Step Journal := do
  match j.tornAt with
  | none => pure j
  | some length =>
    step (Host.ask (.setLength j.file length))
    pure { j with tornAt := none }

/-- Keep a record under the next id. An unfinished line that was cut off stays so, whatever becomes
of the record. -/
def append (j : Journal) (r : Record) : Hosted (Except StoreError Record × Journal) := do
  match History.duplicate? j.records r with
  | some e => pure (.error e, j)
  | none =>
    match ← (do prepare j.file; j.cutTorn : Step Journal).run with
    | .error e => pure (.error e, j)
    | .ok j' =>
      let stored := { r with id := nextId j.records }
      match ← (appendLine j'.file stored.line).run with
      | .error e => pure (.error e, j')
      | .ok () => pure (.ok stored, { j' with records := j'.records ++ [stored] })

/-- The replies of the store. -/
def answer : (r : History.Request) → StateT Journal Hosted (History.Reply r)
  | .record r => fun j => j.append r
  | .latest identity checksum mode => fun j =>
    pure (.ok (History.newest? j.records identity checksum mode), j)
  | .list identity limit => fun j =>
    pure (.ok ((History.newestFirst j.records identity).take limit), j)

end Journal

end Entitle
