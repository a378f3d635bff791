import Entitle.Command.Display
import Entitle.Command.Help
import Entitle.Run.Session
import Entitle.Script.Folder
import Entitle.Settings.Reader

/-!
# The program

From arguments to a response. All that the program needs of the machine, it asks of the host, so it
is the same program on a real file system and on a disk in memory.

## Main definitions

* `Settings.override`: settings with options that go before them.
* `check`, `compile`, `runScript`, `listRecords`: the commands.
* `run`: the whole program.
-/
namespace Entitle

/-- The settings, with the options that go before them. -/
def Settings.override (s : Settings) (o : Command.Options) : Settings where
  scripts := o.scripts.getD s.scripts
  stateFile := o.stateFile.getD s.stateFile
  historyFile := o.historyFile.getD s.historyFile
  includeLimit := s.includeLimit
  callLimitMs := o.timeoutMs.getD s.callLimitMs
  principal := o.principal.getD s.principal

namespace Command

/-! ## Commands -/

/-- Compile a script and respond to its plan. -/
def withPlan (o : Options) (s : Settings) (script : String) (respond : Plan → Response) :
    Hosted Response := do
  match ← Folder.compile s.scripts s.includeLimit script with
  | .error e => pure (o.ofCompileError e)
  | .ok p => pure (respond p)

/-- Run a script on the repository of the state file and record the run in the history file. -/
def runRecorded (o : Options) (s : Settings) (mode : Mode) (script : String) (rerun : Bool)
    (repository : Repository) (journal : Journal) : Hosted Response := do
  let load ← Folder.loaderFor s.scripts s.includeLimit script
  let (program, _) := launch load .empty script mode ⟨s.includeLimit, s.principal, rerun⟩
  let (result, _) ←
    Surroundings.run program ⟨.ofRepository repository s.callLimitMs, .journal journal, .none⟩
  pure (o.ofRun result)

/-- Run a script, from the files of the settings. -/
def runScript (o : Options) (s : Settings) (mode : Mode) (script : String) (rerun : Bool) :
    Hosted Response := do
  match ← Repository.load s.stateFile with
  | .error e => pure (o.failure e.message)
  | .ok repository =>
    match ← Journal.load s.historyFile with
    | .error e => pure (o.failure e.message)
    | .ok journal => runRecorded o s mode script rerun repository journal

/-- List the newest records of a script. -/
def listRecords (o : Options) (s : Settings) (script : String) (limit : Nat) :
    Hosted Response := do
  match Identity.ofIdentifier? script with
  | none => pure (o.failure (LoadError.escapesRoot script).message)
  | some identity =>
    match ← Journal.load s.historyFile with
    | .error e => pure (o.failure e.message)
    | .ok journal =>
      match ← (History.Backend.journal journal).run (History.list identity limit).run .none with
      | (.error e, _) => pure (o.failure e.message)
      | (.ok records, _) => pure (o.ofRecords identity records)

/-- Do a task. -/
def perform (o : Options) (s : Settings) : Task → Hosted Response
  | .check script => withPlan o s script o.ofCheck
  | .compile script => withPlan o s script ofPlan
  | .run mode script rerun => runScript o s mode script rerun
  | .history script limit => listRecords o s script limit

/-! ## The program -/

/-- The response to a mistake. Without a command the general help takes the place of a message. -/
def ofMistake (m : Mistake) : Response :=
  ⟨notFullyDone, "", if m = .missingCommand then generalHelp else m.describe⟩

/-- In whose name runs are recorded if nobody is known. -/
def nobody : String := "anonymous"

/-- The response to arguments, given by a user if one is known. -/
def run (user : Option String) (arguments : List String) : Hosted Response :=
  match Intent.ofArguments arguments with
  | .help c => pure (.printing (helpText c))
  | .helpOnHelp => pure (.printing helpOnHelp)
  | .version => pure (.printing versionText)
  | .refuse m => pure (ofMistake m)
  | .perform o task => do
    match ← Settings.load o.config (user.getD nobody) with
    | .error e => pure (o.failure e.message)
    | .ok s => perform o (s.override o) task

end Command

end Entitle
