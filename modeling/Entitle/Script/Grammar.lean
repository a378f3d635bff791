import Entitle.Script.Lexer
import Entitle.Script.Parser

/-!
# The grammar of statements

The first word of a statement selects its form, and each form has one shape. Only a condition
contains other statements, so three functions call each other: for a statement, for a condition
and for the statements of a block. Each of them takes at least one token, which the type of its
answer says.

## Main definitions

* `Keyword`: the words that begin a statement.
* `Grammar.simple`: the statements without a block.
* `Grammar.statement`, `Grammar.condition`, `Grammar.block`: all statements.
* `Grammar.parseTokens`, `Grammar.parse`: the statements of a list of tokens, of a text.
-/
namespace Entitle

/-- A word that begins a statement without a block. -/
inductive Keyword where
  | create
  | add
  | remove
  | allow
  | deny
  | set
  | copy
  | move
  | delete
  | purge
  | inclusion
  | define
  | check
  deriving DecidableEq, Repr

/-- The keyword that a word in lowercase is. -/
def Keyword.ofLowered? : String → Option Keyword
  | "create" => some .create
  | "add" => some .add
  | "remove" => some .remove
  | "allow" => some .allow
  | "deny" => some .deny
  | "set" => some .set
  | "copy" => some .copy
  | "move" => some .move
  | "delete" => some .delete
  | "purge" => some .purge
  | "include" => some .inclusion
  | "define" => some .define
  | "check" => some .check
  | _ => none

/-- The keyword that a word is, in letters of either case. -/
def Keyword.ofWord? (word : String) : Option Keyword :=
  ofLowered? (Parser.lowered word)

namespace Grammar

open Entitle.Parser

/-! ## Statements without a block -/

/-- A user or a group with its id, and the path of its home if one is given. -/
def creation : Parser Directive := do
  let kind ← either "user" PrincipalKind.user "group" .group .expectedKindAfterCreate
  let id ← quoted "id"
  let placed ← optionalKeyword "at"
  let path ← if placed then some <$> quoted "path" else Pure.pure none
  finish
  Pure.pure (.create kind id path)

/-- A member, a keyword and a group. -/
def membership (preposition : String) (make : String → String → Directive) : Parser Directive := do
  let member ← quoted "member id"
  keyword preposition
  let group ← quoted "group id"
  finish
  Pure.pure (make member group)

/-- Privileges on a path for a principal, and the restrictions if there are any. -/
def permission (effect : Effect) : Parser Directive := do
  let (ps, path, principal) ← grantTarget
  let restricted ← optionalKeyword "with"
  let rs ← if restricted then restrictions else Pure.pure []
  finish
  Pure.pure (.permission effect ps path principal rs)

/-- A property, its value and the path of its node. -/
def propertySetting : Parser Directive := do
  let key ← quoted "property name"
  mark .eq
  let value ← quoted "property value"
  keyword "on"
  let path ← quoted "path"
  finish
  Pure.pure (.setProperty path key value)

/-- A source path and a destination path. -/
def transfer (make : String → String → Directive) : Parser Directive := do
  let source ← quoted "source path"
  keyword "to"
  let target ← quoted "destination path"
  finish
  Pure.pure (make source target)

/-- A path. -/
def deletion : Parser Directive := do
  let path ← quoted "path"
  finish
  Pure.pure (.delete path)

/-- A path, and a principal if only its entries are meant. -/
def purging : Parser Directive := do
  let path ← quoted "path"
  let limited ← optionalKeyword "for"
  let principal ← if limited then some <$> quoted "principal id" else Pure.pure none
  finish
  Pure.pure (.purge path principal)

/-- The existence of a principal, of a kind if one is given. -/
def presence : Parser Check := do
  let id ← quoted "principal id"
  let typed ← optionalKeyword "as"
  let kind ←
    if typed then some <$> either "user" PrincipalKind.user "group" .group .expectedKind
    else Pure.pure none
  Pure.pure (.present id kind)

/-- The word that says what is checked. -/
inductive CheckWord where
  | exists
  | not
  | permission (effect : Effect)

/-- The word after `check`. -/
def checkWord : Parser CheckWord :=
  take (fun t =>
    if isKeyword "exists" t then some .exists
    else if isKeyword "not" t then some .not
    else if isKeyword "allow" t then some (.permission .allow)
    else if isKeyword "deny" t then some (.permission .deny)
    else none) .expectedCheck

/-- A verification. -/
def verification : Parser Directive := do
  let c ← match (← checkWord) with
    | .exists => presence
    | .not => do
      keyword "exists"
      let id ← quoted "principal id"
      Pure.pure (Check.absent id)
    | .permission effect => do
      let (ps, path, principal) ← grantTarget
      Pure.pure (Check.permission effect ps path principal)
  finish
  Pure.pure (.check c)

/-- The identifier of another script. -/
def inclusion (origin : Origin) : Parser Statement := do
  let target ← quoted "script identifier"
  finish
  Pure.pure (.inclusion origin target)

/-- A flag and its truth value. -/
def definition (origin : Origin) : Parser Statement := do
  let flag ← word
  mark .eq
  let value ← either "true" true "false" false .expectedTruth
  finish
  Pure.pure (.define origin flag value)

/-- The rest of a statement without a block, after its first word. -/
def simple (origin : Origin) : Keyword → Parser Statement
  | .create => .directive origin <$> creation
  | .add => .directive origin <$> membership "to" .addMember
  | .remove => .directive origin <$> membership "from" .removeMember
  | .allow => .directive origin <$> permission .allow
  | .deny => .directive origin <$> permission .deny
  | .set => .directive origin <$> propertySetting
  | .copy => .directive origin <$> transfer .copy
  | .move => .directive origin <$> transfer .move
  | .delete => .directive origin <$> deletion
  | .purge => .directive origin <$> purging
  | .check => .directive origin <$> verification
  | .inclusion => inclusion origin
  | .define => definition origin

/-! ## Statements with blocks -/

/-- The flag of a condition, and whether it is negated. -/
def flagTest : Parser (Bool × String) := do
  let negated ← optionalKeyword "not"
  let flag ← word
  Pure.pure (negated, flag)

/-- A value read from the front of `ts`, at least one token long. -/
structure Taken (α : Type) (ts : List Lexeme) where
  value : α
  rest : List Lexeme
  length_lt : rest.length < ts.length

/-- What was taken from a list was taken from a longer one too. -/
def Taken.widen {α β : Type} {ts us : List Lexeme} (f : α → β) (t : Taken α ts)
    (h : ts.length ≤ us.length) : Taken β us :=
  ⟨f t.value, t.rest, Nat.lt_of_lt_of_le t.length_lt h⟩

mutual

/-- The statement at the front of a list of tokens. -/
def statement (cx : ParseContext) (ts : List Lexeme) :
    Except ParseError (Taken Statement ts) :=
  match ts with
  | [] => .error (cx.errorAt [] .expectedStatement)
  | t :: rest =>
    match t.token with
    | .word w =>
      if isKeyword "if" (.word w) then
        (condition cx (cx.origin (t :: rest)) rest).map (·.widen id (by simp))
      else
        match Keyword.ofWord? w with
        | none => .error (cx.errorAt (t :: rest) fun _ => .unknownKeyword w)
        | some kw =>
          match h : (simple (cx.origin (t :: rest)) kw).run cx rest with
          | .error e => .error e
          | .ok (s, left) =>
            .ok ⟨s, left, Nat.lt_succ_of_le
              ((simple (cx.origin (t :: rest)) kw).length_le cx rest s left h)⟩
    | _ => .error (cx.errorAt (t :: rest) .expectedStatement)
termination_by 2 * ts.length

/-- A condition after its first word: a test of a flag, a block, and a block or another condition
for the case that the test fails. -/
def condition (cx : ParseContext) (origin : Origin) (ts : List Lexeme) :
    Except ParseError (Taken Statement ts) :=
  match h : flagTest.run cx ts with
  | .error e => .error e
  | .ok ((negated, flag), afterTest) =>
    have hTest : afterTest.length ≤ ts.length := flagTest.length_le cx ts _ _ h
    match block cx afterTest with
    | .error e => .error e
    | .ok ⟨thenBranch, afterThen, hThen⟩ =>
      match afterThen with
      | [] => .ok ⟨.cond origin flag negated thenBranch [], [], by omega⟩
      | t :: afterElse =>
        have hElse : afterElse.length < ts.length := by
          simp only [List.length_cons] at hThen
          omega
        if isKeyword "else" t.token then
          match afterElse with
          | [] =>
            (block cx []).map
              (·.widen (.cond origin flag negated thenBranch) (by simp))
          | u :: afterIf =>
            if isKeyword "if" u.token then
              (condition cx (cx.origin (u :: afterIf)) afterIf).map
                (·.widen (fun s => .cond origin flag negated thenBranch [s])
                  (by simp only [List.length_cons] at hElse; omega))
            else
              (block cx (u :: afterIf)).map
                (·.widen (.cond origin flag negated thenBranch) (Nat.le_of_lt hElse))
        else .ok ⟨.cond origin flag negated thenBranch [], t :: afterElse, by omega⟩
termination_by 2 * ts.length + 1
decreasing_by
  · omega
  all_goals
    simp only [List.length_cons, List.length_nil] at *
    omega

/-- Statements between braces. -/
def block (cx : ParseContext) (ts : List Lexeme) :
    Except ParseError (Taken (List Statement) ts) :=
  match ts with
  | [] => .error (cx.errorAt [] (.expectedToken .lbrace))
  | t :: rest =>
    if t.token = .lbrace then
      (blockRest cx (cx.origin (t :: rest)) rest).map (·.widen id (by simp))
    else .error (cx.errorAt (t :: rest) (.expectedToken .lbrace))
termination_by 2 * ts.length

/-- Statements up to the brace that closes the block opened at `opening`. -/
def blockRest (cx : ParseContext) (opening : Origin) (ts : List Lexeme) :
    Except ParseError (Taken (List Statement) ts) :=
  match ts with
  | [] => .error ⟨opening, .unclosedBlock⟩
  | t :: rest =>
    if t.token = .rbrace then .ok ⟨[], rest, by simp⟩
    else if t.token = .eof then .error ⟨opening, .unclosedBlock⟩
    else
      match statement cx (t :: rest) with
      | .error e => .error e
      | .ok ⟨s, afterStatement, hStatement⟩ =>
        (blockRest cx opening afterStatement).map
          (·.widen (s :: ·) (Nat.le_of_lt hStatement))
termination_by 2 * ts.length + 1
decreasing_by
  all_goals simp only [List.length_cons] at *
  all_goals omega

end

/-- Statements up to the end of the script. -/
def statements (cx : ParseContext) (ts : List Lexeme) : Except ParseError (List Statement) :=
  match ts with
  | [] => .ok []
  | t :: rest =>
    if t.token = .eof then .ok []
    else if t.token = .rbrace then .error (cx.errorAt (t :: rest) fun _ => .strayBrace)
    else
      match statement cx (t :: rest) with
      | .error e => .error e
      | .ok taken =>
        (statements cx taken.rest).map (taken.value :: ·)
termination_by ts.length
decreasing_by exact taken.length_lt

/-! ## Scripts -/

/-- The statements of a list of tokens. The first end of the script in it ends it; a list without
one ends at the position of its last token. -/
def parseTokens (file : String) (ts : List Lexeme) : Except ParseError (List Statement) :=
  statements ⟨file, (ts.getLast?.map (·.position)).getD .start⟩ ts

/-- The statements of a text. -/
def parse (file text : String) : Except ParseError (List Statement) := do
  parseTokens file (← Lexer.scan file text)

end Grammar

end Entitle
