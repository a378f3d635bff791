import Entitle.Command.Arguments
import Entitle.Text.Printing

/-!
# Help

The texts that tell how the program is used, made from the tables of commands and options.

## Main definitions

* `helpText`: the help on the program or on a command.
* `Mistake.describe`: a mistake with a hint to the help.
-/
namespace Entitle.Command

open Text (padRight unlines)

/-! ## Parts of help -/

/-- What the value of an option is called. -/
def placeholder (name : String) : String :=
  String.ofList (name.toList.map fun c => if c = '-' then '_' else c.toUpper)

/-- An option with its value. -/
def optionUsage (o : OptionSpec) : String :=
  if o.value.isSome then s!"--{o.name} <{placeholder o.name}>" else s!"--{o.name}"

/-- Lines with a text in each of two columns. -/
def columns (rows : List (String × String)) : List String :=
  let width := rows.foldr (fun row width => max row.1.length width) 0
  rows.map fun (left, right) => s!"  {padRight width left}  {right}"

/-- The row on an option, which has no short form. -/
def optionRow (o : OptionSpec) : String × String :=
  ("    " ++ optionUsage o, o.about)

/-- The options of a command: its own ones come right after or before the first shared one, as the
alphabet has it. -/
def listedOptions (c : Command) : List OptionSpec :=
  let first := OptionSpec.shared.take 1
  let (before, after) := c.ownOptions.partition fun o => first.all (o.name < ·.name)
  before ++ first ++ after ++ OptionSpec.shared.drop 1

/-- What asking for help does. -/
def aboutHelp : String := "Print this message or the help of the given subcommand(s)"

/-- The row on help itself. -/
def helpRow : String × String := ("-h, --help", "Print help")

/-- The row on the version. -/
def versionRow : String × String := ("-V, --version", "Print version")

/-! ## Help -/

/-- How a command is called. -/
def usage (c : Command) : String :=
  s!"Usage: warden {c.name} [OPTIONS] <SCRIPT>"

/-- How the program is called. -/
def generalUsage : String := "Usage: warden [OPTIONS] <COMMAND>"

/-- The help on the program. -/
def generalHelp : String :=
  unlines (["Declarative access-control provisioning scripts", "", generalUsage, "", "Commands:"] ++
    columns (all.map (fun c => (c.name, c.about)) ++ [("help", aboutHelp)]) ++ ["", "Options:"] ++
    columns (OptionSpec.shared.map optionRow ++ [helpRow, versionRow]))

/-- The help on a command. -/
def commandHelp (c : Command) : String :=
  unlines ([c.about, "", usage c, "", "Arguments:"] ++
    columns [("<SCRIPT>", "Script identifier, relative to the scripts directory")] ++
    ["", "Options:"] ++ columns ((listedOptions c).map optionRow ++ [helpRow]))

/-- The help on the program or on a command. -/
def helpText : Option Command → String
  | none => generalHelp
  | some c => commandHelp c

/-- The help on asking for help. -/
def helpOnHelp : String :=
  unlines ([aboutHelp, "", "Usage: warden help [COMMAND]...", "", "Arguments:"] ++
    columns [("[COMMAND]...", "Print help for the subcommand(s)")])

/-- What the version is. -/
def versionText : String := unlines ["warden 0.1.0"]

/-- A mistake with a hint to the help. -/
def Mistake.describe (m : Mistake) : String :=
  unlines [s!"error: {m.message}", "", generalUsage, "",
    "For more information, try '--help'."]

end Entitle.Command
