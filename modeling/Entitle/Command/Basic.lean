/-!
# Commands and their options

What can be asked for on the command line. The options stand in tables, so that reading arguments
and describing them cannot disagree.

## Main definitions

* `OptionValue`, `OptionSpec`: what an option is given, and an option.
* `OptionSpec.shared`: the options that may stand before or after the name of a command.
* `Command`: the commands, with their names and options.
-/
namespace Entitle

/-- What an option has to be given. -/
inductive OptionValue where
  /-- One of some words. -/
  | choice (words : List String)
  /-- The name of a file or a directory. -/
  | file
  | anyText
  /-- A decimal number of 64 bits. -/
  | number
  deriving DecidableEq, Repr

/-- An option. Without a value it is a flag. -/
structure OptionSpec where
  name : String
  value : Option OptionValue
  about : String
  deriving DecidableEq, Repr

namespace OptionSpec

/-- The options that every command takes. -/
def shared : List OptionSpec := [
  ⟨"output", some (.choice ["text", "json"]),
    "Output format (text or json) [default: text] [possible values: text, json]"⟩,
  ⟨"quiet", none, "Suppress non-essential output"⟩,
  ⟨"config", some .file, "Configuration file (default: ./warden.toml if present)"⟩,
  ⟨"scripts-dir", some .file, "Directory script identifiers resolve against"⟩,
  ⟨"state-file", some .file, "Repository state file"⟩,
  ⟨"history-file", some .file, "Execution history file"⟩,
  ⟨"principal", some .anyText, "Principal recorded on history records"⟩,
  ⟨"timeout-ms", some .number, "Per repository call timeout in milliseconds"⟩]

end OptionSpec

/-- The commands. Each one is given a script. -/
inductive Command where
  | check
  | compile
  | dryRun
  | apply
  | history
  deriving DecidableEq, Repr

namespace Command

/-- All commands. -/
def all : List Command := [check, compile, dryRun, apply, history]

/-- The name of a command. -/
def name : Command → String
  | check => "check"
  | compile => "compile"
  | dryRun => "dry-run"
  | apply => "apply"
  | history => "history"

/-- What a command does. -/
def about : Command → String
  | check => "Parse, validate and resolve a script; print its checksum"
  | compile => "Print the compiled action list as JSON"
  | dryRun => "Report what applying a script would change, without changing anything"
  | apply => "Apply a script to the repository state"
  | history => "List recorded executions of a script, newest first"

/-- The options that a command takes besides the shared ones. -/
def ownOptions : Command → List OptionSpec
  | apply => [⟨"rerun", none, "Execute even if this script version already applied successfully"⟩]
  | history => [⟨"limit", some .number, "Maximum number of records to show [default: 20]"⟩]
  | check | compile | dryRun => []

/-- All options of a command. -/
def options (c : Command) : List OptionSpec :=
  c.ownOptions ++ OptionSpec.shared

/-- The command of a name. -/
def ofName? (name : String) : Option Command :=
  all.find? (·.name == name)

theorem ofName?_name (c : Command) : ofName? c.name = some c := by
  cases c <;> decide

end Command

end Entitle
