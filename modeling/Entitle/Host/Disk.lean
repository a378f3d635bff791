import Entitle.Host.FileName
import Entitle.Host.Request
import Entitle.Table

/-!
# A disk in memory

A tree of directories, files and links that replies to the requests of the host. Programs that use
files can be run on it, from any tree, and what they leave behind can be looked at. Where the
directories of a file are there, it is one of the hosts that everything said of files holds for
(`Disk.Keeps.run_of_ends`).

## Main definitions

* `Disk`: the entries under their absolute names, and the working directory.
* `Disk.walk`: the entry that a name leads to.
* `Disk.put`, `Disk.link`: entries for a new tree.
* `Disk.answer`: the replies to the requests.

## Implementation notes

Names lead through directories and follow links. `links` counts down the links that may still be
followed; every other step takes a segment of the name.
-/
namespace Entitle

/-- What a name can stand for. -/
inductive DiskEntry where
  | file (content : ByteArray)
  | directory
  /-- A directory in which nothing can be created. -/
  | sealedDirectory
  | link (target : String)
  /-- An empty file that forgets what is written to it. -/
  | sink

/-- A tree of files. -/
structure Disk where
  /-- The entries under their absolute names, without links on the way. -/
  entries : Table DiskEntry
  /-- The directory in which relative names begin. -/
  current : String
  /-- What the clock shows. -/
  now : Instant

namespace Disk

/-! ## Errors -/

/-- A segment on the way is no directory. -/
def notDirectory : FileError := .host 20 "Not a directory"

/-- A directory is there where a file should be. -/
def isDirectory : FileError := .host 21 "Is a directory"

/-- There is an entry already. -/
def alreadyExists : FileError := .host 17 "File exists"

/-- A name or a segment of it is too long. -/
def nameTooLong : FileError := .host 36 "File name too long"

/-- There are too many links on the way. -/
def tooManyLinks : FileError := .host 40 "Too many levels of symbolic links"

/-- The request makes no sense for the entry. -/
def invalid : FileError := .host 22 "Invalid argument"

/-! ## Names -/

/-- The name of an entry in a directory. -/
def child (directory name : String) : String :=
  if directory = "/" then "/" ++ name else directory ++ "/" ++ name

/-- The name of the directory around an entry; the root is in itself. -/
def around (key : String) : String :=
  (FileName.directory? key).getD "/"

/-- Where a name leads. -/
inductive Place where
  | entry (key : String) (e : DiskEntry)
  /-- Only the last segment is missing; `slash` says that a slash follows it. -/
  | vacant (directory name : String) (slash : Bool)

/-- The number of links that a name may lead through. -/
def linkLimit : Nat := 40

/-- The greatest length of a segment in bytes. -/
def segmentLimit : Nat := 255

/-- The greatest length of a name in bytes. -/
def nameLimit : Nat := 4095

/-- Go from an entry along the segments of a name. With `follow`, a link at the end is followed,
too. -/
def walk (d : Disk) (follow : Bool) (links : Nat) (key : String) :
    List String → Except FileError Place
  | [] =>
    match d.entries.get? key with
    | none => .error .missing
    | some e => .ok (.entry key e)
  | segment :: rest =>
    match d.entries.get? key with
    | none => .error .missing
    | some (.file _) | some .sink | some (.link _) => .error notDirectory
    | some .directory | some .sealedDirectory =>
      if segment = "" ∨ segment = "." then walk d follow links key rest
      else if segment = ".." then walk d follow links (around key) rest
      else if segmentLimit < segment.utf8ByteSize then .error nameTooLong
      else match d.entries.get? (child key segment) with
        | none =>
          if rest.all (· == "") then .ok (.vacant key segment !rest.isEmpty)
          else .error .missing
        | some (.link target) =>
          if rest = [] ∧ follow = false then .ok (.entry (child key segment) (.link target))
          else match links with
            | 0 => .error tooManyLinks
            | links + 1 =>
              walk d follow links (if FileName.isAbsolute target then "/" else key)
                (FileName.pieces target ++ rest)
        | some _ => walk d follow links (child key segment) rest
termination_by segments => (links, segments.length)

/-- Where a name of any length leads. -/
def trace (d : Disk) (name : String) (follow : Bool) : Except FileError Place :=
  if name.toList.contains '\x00' then .error .zeroInName
  else if name = "" then .error .missing
  else d.walk follow linkLimit (if FileName.isAbsolute name then "/" else d.current)
    (FileName.pieces name)

/-- Where a name leads. -/
def find (d : Disk) (name : String) (follow : Bool) : Except FileError Place :=
  if name.toList.contains '\x00' then .error .zeroInName
  else if nameLimit < name.utf8ByteSize then .error nameTooLong
  else d.trace name follow

/-- The entry that a name leads to. -/
def entryAt (d : Disk) (name : String) : Except FileError (String × DiskEntry) := do
  match ← d.find name true with
  | .entry key e => pure (key, e)
  | .vacant .. => throw .missing

/-- The name of the entry that a name leads to. It is found segment by segment, so the name may be
of any length. -/
def realNameAt (d : Disk) (name : String) : Except FileError String := do
  match ← d.trace name true with
  | .entry key _ => pure key
  | .vacant .. => throw .missing

/-- The disk with an entry. -/
def set (d : Disk) (key : String) (e : DiskEntry) : Disk :=
  { d with entries := d.entries.insert key e }

/-! ## Directories -/

/-- May entries be created in the directory? -/
def isOpen (d : Disk) (directory : String) : Bool :=
  d.entries.get? directory matches some .directory

/-- The directory that a name leads to, or else an error. -/
def directoryAt (d : Disk) (name : String) (e : FileError) : Except FileError String :=
  match d.entryAt name with
  | .ok (key, .directory) | .ok (key, .sealedDirectory) => .ok key
  | _ => .error e

/-- Create a directory in a place. -/
def create (d : Disk) : Place → Except FileError (String × Disk)
  | .entry .. => .error alreadyExists
  | .vacant directory segment _ =>
    if d.isOpen directory then
      .ok (child directory segment, d.set (child directory segment) .directory)
    else .error .missing

/-- Create the first of some directories after the others, which are around it from the inside out
up to a last one that is there. A directory that is there is left as it is. Directories that were
created before one that cannot be created stay. -/
def makeDirectories (d : Disk) (outermost : String) :
    List String → Except FileError String × Disk
  | [] => (.ok outermost, d)
  | name :: outer =>
    match d.find name false >>= d.create with
    | .ok (key, d') => (.ok key, d')
    | .error e =>
      if e.isMissing then
        match d.makeDirectories outermost outer with
        | (.error e', d') => (.error e', d')
        | (.ok directory, d') =>
          match d'.walk false linkLimit directory [FileName.last name] >>= d'.create with
          | .ok (key, d'') => (.ok key, d'')
          | .error e' => (d'.directoryAt name e', d')
      else (d.directoryAt name e, d)

/-- Create a directory and the directories around it. -/
def makeDirectory (d : Disk) (name : String) : Except FileError Unit × Disk :=
  let outermost := if FileName.isAbsolute name then "/" else d.current
  let (made, d') := d.makeDirectories outermost (FileName.outward name)
  (made.map fun _ => (), d')

/-! ## Files -/

/-- The content of a file. -/
def contentAt (d : Disk) (name : String) : Except FileError (String × ByteArray) := do
  match ← d.entryAt name with
  | (key, .file content) => pure (key, content)
  | (key, .sink) => pure (key, .empty)
  | _ => throw isDirectory

/-- The disk after a file is opened for writing, with the content that is made of the one before. A
missing file is created. -/
def writeAt (d : Disk) (name : String) (change : ByteArray → ByteArray) :
    Except FileError Disk := do
  match ← d.find name true with
  | .entry key (.file content) => pure (d.set key (.file (change content)))
  | .entry _ .sink => pure d
  | .entry .. => throw isDirectory
  | .vacant directory segment slash =>
    if slash then throw isDirectory
    else if d.isOpen directory then
      pure (d.set (child directory segment) (.file (change .empty)))
    else throw .missing

/-- A content of a given length: cut off, or filled up with zeros. -/
def resized (length : Nat) (content : ByteArray) : ByteArray :=
  content.extract 0 length ++ ⟨Array.replicate (length - content.size) 0⟩

/-- The disk after a file is given a length. -/
def resizeAt (d : Disk) (name : String) (length : Nat) : Except FileError Disk := do
  match ← d.entryAt name with
  | (key, .file content) => pure (d.set key (.file (resized length content)))
  | _ => throw invalid

/-- Only a real file can be waited for. -/
def syncAt (d : Disk) (name : String) : Except FileError Unit := do
  match ← d.entryAt name with
  | (_, .file _) => pure ()
  | _ => throw invalid

/-! ## New trees -/

/-- The disk with a directory, or with those of the directories around it that can be created. -/
def withDirectory (d : Disk) (name : String) : Disk :=
  (d.makeDirectory name).2

/-- A disk with a working directory and nothing else. -/
def empty (current : String) : Disk :=
  { Disk.withDirectory ⟨Table.empty.insert "/" .directory, "/", ⟨0, 0⟩⟩ current with current }

/-- The disk with the directory around a name. -/
def withAround (d : Disk) (name : String) : Disk :=
  match FileName.directory? name with
  | none => d
  | some directory => d.withDirectory directory

/-- The disk with a file, in directories that are created where they are missing. -/
def put (d : Disk) (name : String) (content : ByteArray) : Disk :=
  let d' := d.withAround name
  (d'.writeAt name fun _ => content).toOption.getD d'

/-- The disk with a link, in directories that are created where they are missing. -/
def link (d : Disk) (name target : String) : Disk :=
  let d' := d.withAround name
  match d'.find name false with
  | .ok (.vacant directory segment _) => d'.set (child directory segment) (.link target)
  | _ => d'

/-! ## Replies -/

/-- The reply to a change, and the disk after it. -/
def changed (d : Disk) (result : Except FileError Disk) : Except FileError Unit × Disk :=
  match result with
  | .ok d' => (.ok (), d')
  | .error e => (.error e, d)

/-- The replies to the requests. A request that fails changes nothing, but some of the directories
around one that cannot be created may be new. -/
def answer : (r : Host.Request) → StateM Disk (Host.Reply r)
  | .realName name => fun d => (d.realNameAt name, d)
  | .read name => fun d => ((d.contentAt name).map (·.2), d)
  | .makeDirectory name => fun d => d.makeDirectory name
  | .write name content => fun d => d.changed (d.writeAt name fun _ => content)
  | .openAppend name => fun d => d.changed (d.writeAt name id)
  | .length name => fun d => ((d.contentAt name).map (·.2.size), d)
  | .setLength name length => fun d => d.changed (d.resizeAt name length)
  | .append name content => fun d => d.changed (d.writeAt name (· ++ content))
  | .sync name => fun d => (d.syncAt name, d)
  | .now => fun d => (d.now, d)

/-- Run a program on a disk. -/
def run {α : Type} (p : Hosted α) (d : Disk) : α × Disk :=
  (p.interpret answer).run d

end Disk

end Entitle
