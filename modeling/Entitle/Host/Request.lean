import Entitle.Dialogue
import Entitle.Host.Instant

/-!
# Requests to the host

The only things that this library asks of the machine it runs on: files and the time. Programs that
do so are dialogues, so they can run on a real file system or on a model of one, and any request
may fail.

## Main definitions

* `FileError`: why a request about a file fails.
* `Host.Request`, `Host.Reply`: the requests and their replies.
* `Hosted`: programs that use the host.
* `Host.readText`: the text of a file.
-/
namespace Entitle

/-- Why a request about a file fails. -/
inductive FileError where
  /-- The host refuses: its number for the reason, and the reason in words. -/
  | host (code : Nat) (reason : String)
  /-- The bytes of the file are no UTF-8 text. -/
  | notText
  /-- No file can have a name with a zero character. -/
  | zeroInName
  deriving DecidableEq, Repr

namespace FileError

/-- The file, or a directory on the way to it, does not exist. -/
def missing : FileError := .host 2 "No such file or directory"

/-- Does the error say that there is no such file? -/
def isMissing : FileError → Bool
  | host code _ => code == 2
  | _ => false

/-- The wording of an error. -/
def message : FileError → String
  | host code reason => s!"{reason} (os error {code})"
  | notText => "stream did not contain valid UTF-8"
  | zeroInName => "file name contained an unexpected NUL byte"

end FileError

namespace Host

/-- What can be asked of the host. -/
inductive Request where
  /-- The absolute name of an existing file, without links on the way. -/
  | realName (name : String)
  /-- The content of a file. -/
  | read (name : String)
  /-- Create a directory and the directories around it, where they are missing. If this fails, some
  of the directories around it may have been created. -/
  | makeDirectory (name : String)
  /-- Create a file or replace its content. -/
  | write (name : String) (content : ByteArray)
  /-- Create a file unless it exists, and check that it can be appended to. -/
  | openAppend (name : String)
  /-- The number of bytes of a file. -/
  | length (name : String)
  /-- Cut a file to a number of bytes. -/
  | setLength (name : String) (length : Nat)
  /-- Add bytes at the end of a file. If this fails, any part of them may have been added. -/
  | append (name : String) (content : ByteArray)
  /-- Wait until the content of a file is on the disk. -/
  | sync (name : String)
  /-- The time. -/
  | now

/-- What the host replies. -/
abbrev Reply : Request → Type
  | .realName _ => Except FileError String
  | .read _ => Except FileError ByteArray
  | .length _ => Except FileError Nat
  | .makeDirectory _ | .write _ _ | .openAppend _ | .setLength _ _ | .append _ _ | .sync _ =>
    Except FileError Unit
  | .now => Instant

end Host

/-- Programs that use the host. -/
abbrev Hosted := Dialogue Host.Request Host.Reply

namespace Host

/-- Ask the host. -/
def ask (r : Request) : Hosted (Reply r) :=
  Dialogue.request r

/-- The text that bytes write. -/
def textOf (content : ByteArray) : Except FileError String :=
  match String.fromUTF8? content with
  | some text => .ok text
  | none => .error .notText

/-- The text of a file. -/
def readText (name : String) : Hosted (Except FileError String) := do
  match ← ask (.read name) with
  | .error e => pure (.error e)
  | .ok content => pure (textOf content)

end Host

end Entitle
