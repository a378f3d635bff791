import Entitle.Command.Basic
import Entitle.Json.Reader
import Entitle.Run.Report

/-!
# Arguments

Reading the arguments of the program, word by word from the left: options, the name of a command,
and again options and the script that the command is given. The first word that cannot stand where
it stands is a mistake; asking for help or for the version ends the reading.

## Main definitions

* `Mistake`: what is wrong with arguments.
* `Word`: the forms of a word.
* `Given`: what the words of one level say.
* `Pending`: an option that is not finished yet.
* `readWords`: read the words of one level.
* `Options`, `Task`, `Intent`: what is asked for.
* `Intent.ofArguments`: read all arguments.

## Implementation notes

The shared options have a meaning on both levels. An option may be given once on each; where both
give one, the value after the name of the command counts.

An option with its value in a word of its own is not looked at before the next option, or the
script, or the end of all words. So what comes after the name of a command is read before a last
option in front of it, and asking for help there is heard even if that option is a mistake.
-/
namespace Entitle.Command

/-! ## Mistakes -/

/-- What is wrong with arguments. -/
inductive Mistake where
  | unexpected (word : String)
  /-- A flag is given a value. -/
  | unexpectedValue (option value : String)
  | missingValue (option : String)
  | invalidValue (option value : String)
  | repeated (option : String)
  | unknownCommand (name : String)
  | missingCommand
  | missingScript
  deriving DecidableEq, Repr

/-- The wording of a mistake. -/
def Mistake.message : Mistake → String
  | unexpected word => s!"unexpected argument '{word}' found"
  | unexpectedValue option value => s!"unexpected value '{value}' for '--{option}' found"
  | missingValue option => s!"a value is required for '--{option}' but none was supplied"
  | invalidValue option value => s!"invalid value '{value}' for '--{option}'"
  | repeated option => s!"the argument '--{option}' cannot be used multiple times"
  | unknownCommand name => s!"unrecognized subcommand '{name}'"
  | missingCommand => "'warden' requires a subcommand but one was not provided"
  | missingScript => "the following required arguments were not provided: <SCRIPT>"

/-- Why the reading of words ends early. -/
inductive Stop where
  | mistake (m : Mistake)
  | help
  | version
  deriving DecidableEq, Repr

/-! ## Words -/

/-- The forms of a word. -/
inductive Word where
  /-- Two hyphens: all words after it are plain. -/
  | separator
  /-- A name after two hyphens, perhaps with a value after an equals sign. -/
  | long (name : String) (value : Option String)
  /-- Letters after one hyphen. -/
  | short (first : Char)
  | plain
  deriving DecidableEq, Repr

/-- The name before the first equals sign and the value after it. -/
def splitValue (cs : List Char) : String × Option String :=
  (String.ofList (cs.takeWhile (· != '=')),
    match cs.dropWhile (· != '=') with
    | [] => none
    | _ :: value => some (String.ofList value))

/-- The form of a word. A single hyphen is plain. -/
def Word.ofText (word : String) : Word :=
  match word.toList with
  | ['-', '-'] => separator
  | '-' :: '-' :: cs => long (splitValue cs).1 (splitValue cs).2
  | '-' :: c :: _ => short c
  | _ => plain

/-! ## Values -/

/-- The number that a word writes in decimal digits, perhaps after a plus sign. -/
def number? (word : String) : Option Nat :=
  let digits := match word.toList with
    | '+' :: ds => ds
    | ds => ds
  if digits.isEmpty || !digits.all Char.isDigit then none
  else some (Json.natOfDigits digits) |>.filter (· < wordBound)

/-- Can the option be given this value? -/
def accepts : OptionValue → String → Bool
  | .choice words, value => words.contains value
  | .file, value => value != ""
  | .anyText, _ => true
  | .number, value => (number? value).isSome

/-! ## One level -/

/-- What the words of a level say. -/
structure Given where
  /-- The options with their values; a flag has the empty value. -/
  options : List (String × String)
  /-- The script, on the level of a command. -/
  script : Option String
  deriving DecidableEq, Repr

namespace Given

/-- Nothing. -/
def nothing : Given := ⟨[], none⟩

/-- The value of an option. -/
def value? (g : Given) (name : String) : Option String :=
  g.options.lookup name

/-- Is the option given? -/
def has (g : Given) (name : String) : Bool :=
  (g.value? name).isSome

/-- One more option. -/
def withOption (g : Given) (spec : OptionSpec) (value : String) : Except Stop Given :=
  if g.has spec.name then .error (.mistake (.repeated spec.name))
  else if spec.value.all (accepts · value) then
    .ok { g with options := (spec.name, value) :: g.options }
  else .error (.mistake (.invalidValue spec.name value))

/-- The script. There is only one. -/
def withScript (g : Given) (script : String) : Except Stop Given :=
  if g.script.isSome then .error (.mistake (.unexpected script))
  else .ok { g with script := some script }

end Given

/-- Where words stand. -/
structure Level where
  options : List OptionSpec
  /-- Before the name of the command. -/
  isOuter : Bool

/-- The option of a name on a level. -/
def Level.option? (l : Level) (name : String) : Option OptionSpec :=
  l.options.find? (·.name == name)

/-- What a word stops the reading for, if it does. -/
def Level.stop? (l : Level) : Word → Option Stop
  | .short c =>
    if c = 'h' then some .help else if c = 'V' ∧ l.isOuter then some .version else none
  | .long name none =>
    if name = "help" then some .help
    else if name = "version" ∧ l.isOuter then some .version
    else none
  | _ => none

/-- An option that is not finished yet: it waits for its value, or for what comes next. -/
structure Pending where
  spec : OptionSpec
  value : Option String
  deriving DecidableEq, Repr

/-- Finish an option, if one is pending. -/
def Given.finish (g : Given) : Option Pending → Except Stop Given
  | none => .ok g
  | some ⟨spec, none⟩ => .error (.mistake (.missingValue spec.name))
  | some ⟨spec, some value⟩ => g.withOption spec value

/-- What a word in the form of an option says: the options with it, or the option that it begins. -/
def Level.takeOption (l : Level) (g : Given) (word name : String) (attached : Option String) :
    Except Stop (Given × Option Pending) :=
  match l.option? name with
  | none => .error (.mistake (.unexpected word))
  | some spec =>
    match spec.value, attached with
    | none, some value => .error (.mistake (.unexpectedValue name value))
    | none, none => (g.withOption spec "").map (·, none)
    | some _, some value => (g.withOption spec value).map (·, none)
    | some _, none => .ok (g, some ⟨spec, none⟩)

/-- Read the words of a level. On the outer level the first plain word ends it, and is given back
with the words after it and the option that is still pending. -/
def readWords (l : Level) : Option Pending → Given → List String →
    Except Stop (Given × Option Pending × List String)
  | pending, g, [] =>
    if l.isOuter then .ok (g, pending, []) else return (← g.finish pending, none, [])
  | some ⟨spec, none⟩, g, word :: rest =>
    if Word.ofText word = .plain then readWords l (some ⟨spec, some word⟩) g rest
    else .error (.mistake (.missingValue spec.name))
  | pending, g, word :: rest =>
    match Word.ofText word with
    | .plain =>
      if l.isOuter then .ok (g, pending, word :: rest)
      else do readWords l none (← (← g.finish pending).withScript word) rest
    | .separator =>
      if l.isOuter then .error (.mistake (.unexpected word))
      else return (← rest.foldlM Given.withScript (← g.finish pending), none, [])
    | .short c => do
      let _ ← g.finish pending
      .error ((l.stop? (.short c)).getD (.mistake (.unexpected word)))
    | .long name attached => do
      let g' ← g.finish pending
      match l.stop? (.long name attached) with
      | some stop => .error stop
      | none =>
        let (g'', pending') ← l.takeOption g' word name attached
        readWords l pending' g'' rest

/-! ## What is asked for -/

/-- The forms of what a command prints. -/
inductive Form where
  | text
  | json
  deriving DecidableEq, Repr

/-- The meaning of the shared options. -/
structure Options where
  form : Form
  /-- Print only what was asked for. -/
  quiet : Bool
  config : Option String
  scripts : Option String
  stateFile : Option String
  historyFile : Option String
  principal : Option String
  timeoutMs : Option Nat
  deriving DecidableEq, Repr

/-- What is to be done with a script. -/
inductive Task where
  | check (script : String)
  | compile (script : String)
  | run (mode : Mode) (script : String) (rerun : Bool)
  | history (script : String) (limit : Nat)
  deriving DecidableEq, Repr

/-- What arguments ask for. -/
inductive Intent where
  | perform (options : Options) (task : Task)
  /-- Help, perhaps on one command. -/
  | help (command : Option Command)
  /-- Help on asking for help. -/
  | helpOnHelp
  | version
  | refuse (m : Mistake)
  deriving DecidableEq, Repr

/-- The number of records that are listed without a limit. -/
def defaultLimit : Nat := 20

/-- The meaning of the shared options that are given on two levels. -/
def Options.ofGiven (outer inner : Given) : Options :=
  let value? (name : String) : Option String := (inner.value? name) <|> (outer.value? name)
  { form := if value? "output" = some "json" then .json else .text
    quiet := inner.has "quiet" || outer.has "quiet"
    config := value? "config"
    scripts := value? "scripts-dir"
    stateFile := value? "state-file"
    historyFile := value? "history-file"
    principal := value? "principal"
    timeoutMs := (value? "timeout-ms").bind number? }

/-- The task of a command. -/
def Task.ofGiven (c : Command) (script : String) (g : Given) : Task :=
  match c with
  | .check => .check script
  | .compile => .compile script
  | .dryRun => .run .dryRun script false
  | .apply => .run .apply script (g.has "rerun")
  | .history => .history script (((g.value? "limit").bind number?).getD defaultLimit)

namespace Intent

/-- What a stop asks for. -/
def ofStop (c : Option Command) : Stop → Intent
  | .mistake m => refuse m
  | .help => help c
  | .version => version

/-- What the words after `help` ask for. -/
def ofTopics : List String → Intent
  | [] => help none
  | ["help"] => helpOnHelp
  | [name] =>
    match ofName? name with
    | some c => help (some c)
    | none => refuse (.unknownCommand name)
  | name :: more :: _ =>
    if (ofName? name).isSome ∨ name = "help" then refuse (.unknownCommand more)
    else refuse (.unknownCommand name)

/-- What the words after the name of a command ask for, when an option in front of it is pending. -/
def ofCommand (outer : Given) (pending : Option Pending) (c : Command) (words : List String) :
    Intent :=
  match readWords ⟨c.options, false⟩ none .nothing words with
  | .error stop => ofStop (some c) stop
  | .ok (inner, _) =>
    match inner.script, outer.finish pending with
    | none, _ => refuse .missingScript
    | some _, .error stop => ofStop none stop
    | some script, .ok outer' => perform (.ofGiven outer' inner) (.ofGiven c script inner)

/-- What arguments ask for. -/
def ofArguments (arguments : List String) : Intent :=
  match readWords ⟨OptionSpec.shared, true⟩ none .nothing arguments with
  | .error stop => ofStop none stop
  | .ok (outer, pending, []) =>
    match outer.finish pending with
    | .error stop => ofStop none stop
    | .ok _ => refuse .missingCommand
  | .ok (outer, pending, name :: words) =>
    if name = "help" then ofTopics words
    else match ofName? name with
      | some c => ofCommand outer pending c words
      | none => refuse (.unknownCommand name)

end Intent

end Entitle.Command
