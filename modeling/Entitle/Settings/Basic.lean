import Entitle.Plan.Compile

/-!
# Settings

Where a command finds its scripts, the state and the history, what limits hold, and in whose name
runs are recorded. Every setting has a value to begin with; a settings file makes some of them anew.

## Main definitions

* `Settings`, `Settings.initial`: the settings and what they are without a file.
* `SettingValue`: what a settings file can give to a key.
* `Settings.assign?`, `Settings.assignAll?`: the settings after keys are given values.
-/
namespace Entitle

/-- What commands work on and with. -/
structure Settings where
  /-- The folder of the scripts. -/
  scripts : String
  stateFile : String
  historyFile : String
  /-- The limit of inclusions one inside another. -/
  includeLimit : Nat
  /-- The number of milliseconds after which a call counts as unanswered. -/
  callLimitMs : Nat
  /-- In whose name runs are recorded. -/
  principal : String
  deriving DecidableEq, Repr

/-- What a settings file gives to a key. -/
inductive SettingValue where
  | text (s : String)
  | number (n : Int)
  deriving DecidableEq, Repr

namespace Settings

/-- The settings without a file. -/
def initial (principal : String) : Settings :=
  ⟨"scripts", ".warden/state.json", ".warden/history.jsonl", defaultIncludeLimit, 30000, principal⟩

/-- The settings after a key is given a value. Limits are no less than zero; an unknown key or a
value of the wrong kind is refused. -/
def assign? (s : Settings) (key : String) (value : SettingValue) : Option Settings :=
  match key, value with
  | "scripts_dir", .text t => some { s with scripts := t }
  | "state_file", .text t => some { s with stateFile := t }
  | "history_file", .text t => some { s with historyFile := t }
  | "principal", .text t => some { s with principal := t }
  | "max_include_depth", .number n => n.toNat?.map fun limit => { s with includeLimit := limit }
  | "call_timeout_ms", .number n => n.toNat?.map fun limit => { s with callLimitMs := limit }
  | _, _ => none

/-- The settings after keys are given values. No key may be given two. -/
def assignAll? (s : Settings) (entries : List (String × SettingValue)) : Option Settings :=
  if (entries.map (·.1)).Nodup then
    entries.foldlM (fun s (key, value) => s.assign? key value) s
  else none

end Settings

end Entitle
