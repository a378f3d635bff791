import Entitle.Command.Program

/-!
# The command line

The program on a real machine: its requests are served by the file system and the clock, and its
response is printed.

## Main definitions

* `Host.serve`: the replies of the machine.
* `main`: the program.
-/
namespace Entitle.Host

/-- The error of a number and a reason. Some machines count errors down from zero and write reasons
with a small letter. -/
def refusal (code : UInt32) (reason : String) : FileError :=
  .host code.toInt32.toInt.natAbs reason.capitalize

/-- Why the machine refuses. -/
def refusalOf : IO.Error → FileError
  | .noFileOrDirectory _ code reason | .interrupted _ code reason
  | .alreadyExists _ code reason | .invalidArgument _ code reason
  | .permissionDenied _ code reason | .resourceExhausted _ code reason
  | .inappropriateType _ code reason | .noSuchThing _ code reason
  | .otherError code reason | .resourceBusy code reason | .resourceVanished code reason
  | .unsupportedOperation code reason | .hardwareFault code reason
  | .unsatisfiedConstraints code reason | .illegalOperation code reason
  | .protocolError code reason | .timeExpired code reason => refusal code reason
  | .unexpectedEof => .host 5 "Input/output error"
  | .userError reason => .host 5 reason

/-- An action on a file, or why it fails. -/
def attempt {α : Type} (name : String) (action : IO α) : IO (Except FileError α) := do
  if name.toList.contains '\x00' then return .error .zeroInName
  try
    return .ok (← action)
  catch e =>
    return .error (refusalOf e)

/-- Go on reading until a number of bytes is read or the file ends. -/
def skipBytes (h : IO.FS.Handle) : (rounds : Nat) → (bytes : Nat) → IO Unit
  | 0, _ => pure ()
  | rounds + 1, bytes => do
    if bytes = 0 then return
    let content ← h.read (USize.ofNat (min bytes 65536))
    if content.isEmpty then return
    skipBytes h rounds (bytes - content.size)

/-- The content of a file. -/
def contentOf (name : String) : IO ByteArray := do
  let h ← IO.FS.Handle.mk name .read
  h.readBinToEnd

/-- Cut a file to a number of bytes. -/
def cut (name : String) (bytes : Nat) : IO Unit := do
  let h ← IO.FS.Handle.mk name .readWrite
  skipBytes h bytes bytes
  h.truncate

/-- Add bytes at the end of a file. -/
def addTo (name : String) (content : ByteArray) : IO Unit := do
  let h ← IO.FS.Handle.mk name .append
  h.write content
  h.flush

/-- The time at which a file is made now. -/
def clock : IO Instant := do
  let (_, name) ← IO.FS.createTempFile
  let time := (← name.metadata).modified
  IO.FS.removeFile name
  return ⟨time.sec.toNat, time.nsec.toNat⟩

/-- The replies of the machine. -/
def serve : (r : Request) → IO (Reply r)
  | .realName name => attempt name (return (← IO.FS.realPath name).toString)
  | .read name => attempt name (contentOf name)
  | .makeDirectory name => attempt name (IO.FS.createDirAll name)
  | .write name content => attempt name (IO.FS.writeBinFile name content)
  | .openAppend name => attempt name (addTo name .empty)
  | .length name => attempt name (return (← contentOf name).size)
  | .setLength name bytes => attempt name (cut name bytes)
  | .append name content => attempt name (addTo name content)
  | .sync name => attempt name (addTo name .empty)
  | .now => clock

end Entitle.Host

/-- Run the program and print its response. -/
def main (arguments : List String) : IO UInt32 := do
  let response ←
    (Entitle.Command.run (← IO.getEnv "USER") arguments).interpret Entitle.Host.serve
  (← IO.getStdout).putStr response.out
  (← IO.getStderr).putStr response.err
  return response.code.toUInt32
