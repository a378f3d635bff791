import Entitle.Script.Grammar

/-!
# Reading with a cursor

The grammar on a list of tokens with a cursor, a place that never goes beyond the last token. A
reader only looks at the token in its place and goes on to the next one. The rules that call each
other, or themselves, are given the rules to call. Nothing is shorter for these than before, so
nothing says how deep the calls go: up to any fixed depth there may be no answer, and a reader may
look for a token that is not there, or stand still. The list has to end with the end of the script
for none of this to happen.

## Main definitions

* `Walk`: a reader with a cursor.
* `Walk.current`, `Walk.advance`: the only access to the tokens.
* `Walk.Rules.next`: the grammar, with calls of the rules that are given.
* `Walk.rules`: the grammar with calls up to a depth.
* `Walk.parse`: the statements of any list of tokens.
-/
namespace Entitle

open Entitle.Parser (isKeyword privilege?)

/-- A named list of tokens. -/
structure Stream where
  file : String
  tokens : List Lexeme

/-- Why a reader stops without a value: the script is in error, or there is no token in the place
that is looked at. -/
inductive Halt where
  | refused (e : ParseError)
  | outOfRange

/-- A reader of a stream that keeps a cursor. It has no answer if it needs deeper calls. -/
abbrev Walk := ReaderT Stream (StateT Nat (ExceptT Halt Option))

variable {α : Type}

namespace Walk

/-! ## Tokens -/

/-- The place of the last token. It is counted down from the number of tokens, so that there has to
be one. -/
def lastPlace : Walk Nat := do
  let s ← read
  if s.tokens.length = 0 then throw .outOfRange else pure (s.tokens.length - 1)

/-- The token in a place. -/
def tokenAt (i : Nat) : Walk Lexeme := do
  (← read).tokens[i]?.elim (throw .outOfRange) pure

/-- The token at the cursor, or the last one if the cursor is behind it. -/
def current : Walk Lexeme := do
  tokenAt (min (← get) (← lastPlace))

/-- Go on to the next token, if there is one. -/
def advance : Walk Unit := do
  let last ← lastPlace
  if (← get) < last then modify (· + 1)

/-- The origin of the token at the cursor. -/
def here : Walk Origin := do
  let s ← read
  pure (.ofPosition s.file (← current).position)

/-- Stop at the token at the cursor. -/
def refuse (cause : Token → ParseError.Cause) : Walk α := do
  throw (.refused ⟨← here, cause (← current).token⟩)

/-- Take the token at the cursor if it is of the wanted form. -/
def take (want : Token → Option α) (cause : Token → ParseError.Cause) : Walk α := do
  match want (← current).token with
  | some a => do
    advance
    pure a
  | none => refuse cause

/-- A keyword that has to follow. -/
def keyword (k : String) : Walk Unit :=
  take (fun t => if isKeyword k t then some () else none) (.expectedKeyword k)

/-- A mark that has to follow. -/
def mark (m : Token) : Walk Unit :=
  take (fun t => if t = m then some () else none) (.expectedToken m)

/-- The semicolon at the end of a statement. -/
def finish : Walk Unit :=
  take (fun t => if t = .semi then some () else none) .expectedEnd

/-- A word that is not a keyword of the grammar. -/
def word : Walk String :=
  take (fun t => match t with | .word w => some w | _ => none) .expectedIdentifier

/-- A quoted string. -/
def quoted (what : String) : Walk String :=
  take (fun t => match t with | .str s => some s | _ => none) (.expectedQuoted what)

/-- One of two keywords, each with its value. -/
def either (k₁ : String) (a₁ : α) (k₂ : String) (a₂ : α) (cause : Token → ParseError.Cause) :
    Walk α :=
  take (fun t => if isKeyword k₁ t then some a₁ else if isKeyword k₂ t then some a₂ else none)
    cause

/-- Take a keyword if it is there. -/
def optionalKeyword (k : String) : Walk Bool := do
  if isKeyword k (← current).token then
    advance
    pure true
  else pure false

/-! ## Lists and rules -/

/-- Things with commas between them, at least one; `list` is for those behind the first comma. -/
def separated (item : Walk α) (list : Walk (List α)) : Walk (List α) := do
  let a ← item
  if (← current).token = .comma then
    advance
    let more ← list
    pure (a :: more)
  else pure [a]

/-- One restriction: its name, which is a word or a string, and its value. -/
def restriction : Walk (String × String) := do
  let key ← take (fun t => match t with | .word w => some w | .str s => some s | _ => none)
    .expectedRestriction
  mark .eq
  let value ← quoted "restriction value"
  pure (key, value)

/-- The rules that call each other, or themselves. -/
structure Rules where
  /-- Privileges with commas between them. -/
  privileges : Walk (List String)
  /-- Restrictions with commas between them. -/
  restrictions : Walk (List (String × String))
  /-- A statement. -/
  statement : Walk Statement
  /-- A condition at its first word, with its origin. -/
  condition : Origin → Walk Statement
  /-- The second branch of a condition, if there is one: a block or another condition. -/
  otherwise : Walk (List Statement)
  /-- Statements between braces. -/
  block : Walk (List Statement)
  /-- Statements up to the brace that closes the block with this origin. -/
  blockRest : Origin → Walk (List Statement)
  /-- Statements up to the end of the script. -/
  statements : Walk (List Statement)

variable (r : Rules)

/-- What a permission is about: privileges, a path and a principal. -/
def grantTarget : Walk (List String × String × String) := do
  let ps ← r.privileges
  keyword "on"
  let path ← quoted "path"
  keyword "for"
  let principal ← quoted "principal id"
  pure (ps, path, principal)

/-! ## Statements without a block -/

/-- A user or a group with its id, and the path of its home if one is given. -/
def creation : Walk Directive := do
  let kind ← either "user" PrincipalKind.user "group" .group .expectedKindAfterCreate
  let id ← quoted "id"
  let placed ← optionalKeyword "at"
  let path ← if placed then some <$> quoted "path" else pure none
  finish
  pure (.create kind id path)

/-- A member, a keyword and a group. -/
def membership (preposition : String) (make : String → String → Directive) : Walk Directive := do
  let member ← quoted "member id"
  keyword preposition
  let group ← quoted "group id"
  finish
  pure (make member group)

/-- Privileges on a path for a principal, and the restrictions if there are any. -/
def permission (effect : Effect) : Walk Directive := do
  let (ps, path, principal) ← grantTarget r
  let restricted ← optionalKeyword "with"
  let rs ← if restricted then r.restrictions else pure []
  finish
  pure (.permission effect ps path principal rs)

/-- A property, its value and the path of its node. -/
def propertySetting : Walk Directive := do
  let key ← quoted "property name"
  mark .eq
  let value ← quoted "property value"
  keyword "on"
  let path ← quoted "path"
  finish
  pure (.setProperty path key value)

/-- A source path and a destination path. -/
def transfer (make : String → String → Directive) : Walk Directive := do
  let source ← quoted "source path"
  keyword "to"
  let target ← quoted "destination path"
  finish
  pure (make source target)

/-- A path. -/
def deletion : Walk Directive := do
  let path ← quoted "path"
  finish
  pure (.delete path)

/-- A path, and a principal if only its entries are meant. -/
def purging : Walk Directive := do
  let path ← quoted "path"
  let limited ← optionalKeyword "for"
  let principal ← if limited then some <$> quoted "principal id" else pure none
  finish
  pure (.purge path principal)

/-- The existence of a principal, of a kind if one is given. -/
def presence : Walk Check := do
  let id ← quoted "principal id"
  let typed ← optionalKeyword "as"
  let kind ←
    if typed then some <$> either "user" PrincipalKind.user "group" .group .expectedKind
    else pure none
  pure (.present id kind)

/-- The word that says what is checked. -/
def checkWord : Walk Grammar.CheckWord :=
  take (fun t =>
    if isKeyword "exists" t then some .exists
    else if isKeyword "not" t then some .not
    else if isKeyword "allow" t then some (.permission .allow)
    else if isKeyword "deny" t then some (.permission .deny)
    else none) .expectedCheck

/-- A verification. -/
def verification : Walk Directive := do
  let c ← match (← checkWord) with
    | .exists => presence
    | .not => do
      keyword "exists"
      let id ← quoted "principal id"
      pure (Check.absent id)
    | .permission effect => do
      let (ps, path, principal) ← grantTarget r
      pure (Check.permission effect ps path principal)
  finish
  pure (.check c)

/-- The identifier of another script. -/
def inclusion (origin : Origin) : Walk Statement := do
  let target ← quoted "script identifier"
  finish
  pure (.inclusion origin target)

/-- A flag and its truth value. -/
def definition (origin : Origin) : Walk Statement := do
  let flag ← word
  mark .eq
  let value ← either "true" true "false" false .expectedTruth
  finish
  pure (.define origin flag value)

/-- A statement without a block behind its first word. -/
def afterWord (origin : Origin) : Keyword → Walk Statement
  | .create => .directive origin <$> creation
  | .add => .directive origin <$> membership "to" .addMember
  | .remove => .directive origin <$> membership "from" .removeMember
  | .allow => .directive origin <$> permission r .allow
  | .deny => .directive origin <$> permission r .deny
  | .set => .directive origin <$> propertySetting
  | .copy => .directive origin <$> transfer .copy
  | .move => .directive origin <$> transfer .move
  | .delete => .directive origin <$> deletion
  | .purge => .directive origin <$> purging
  | .check => .directive origin <$> verification r
  | .inclusion => inclusion origin
  | .define => definition origin

/-- A statement without a block at its first word. -/
def simple (origin : Origin) (kw : Keyword) : Walk Statement := do
  advance
  afterWord r origin kw

/-! ## Statements with blocks -/

/-- The flag of a condition, and whether it is negated. -/
def flagTest : Walk (Bool × String) := do
  let negated ← optionalKeyword "not"
  let flag ← word
  pure (negated, flag)

/-- The grammar, with calls of given rules. -/
def Rules.next (r : Rules) : Rules where
  privileges := separated (take privilege? .expectedPrivilege) r.privileges
  restrictions := separated restriction r.restrictions
  statement := do
    let origin ← here
    match (← current).token with
    | .word w =>
      if isKeyword "if" (.word w) then r.condition origin
      else match Keyword.ofWord? w with
        | none => refuse fun _ => .unknownKeyword w
        | some kw => simple r origin kw
    | _ => refuse .expectedStatement
  condition origin := do
    advance
    let (negated, flag) ← flagTest
    let thenBranch ← r.block
    let elseBranch ← r.otherwise
    pure (.cond origin flag negated thenBranch elseBranch)
  otherwise := do
    if isKeyword "else" (← current).token then
      advance
      if isKeyword "if" (← current).token then
        let nested ← r.condition (← here)
        pure [nested]
      else r.block
    else pure []
  block := do
    let opening ← here
    mark .lbrace
    r.blockRest opening
  blockRest opening := do
    let t ← current
    if t.token = .rbrace then
      advance
      pure []
    else if t.token = .eof then throw (.refused ⟨opening, .unclosedBlock⟩)
    else
      let s ← r.statement
      let more ← r.blockRest opening
      pure (s :: more)
  statements := do
    let t ← current
    if t.token = .eof then pure []
    else if t.token = .rbrace then refuse fun _ => .strayBrace
    else
      let s ← r.statement
      let more ← r.statements
      pure (s :: more)

/-- No answer. -/
def unanswered : Walk α := fun _ _ => none

/-- The grammar with calls up to a depth. -/
def rules : Nat → Rules
  | 0 => ⟨unanswered, unanswered, unanswered, fun _ => unanswered, unanswered, unanswered,
      fun _ => unanswered, unanswered⟩
  | n + 1 => (rules n).next

end Walk

/-! ## Scripts -/

/-- The end of a script that a list of tokens does not say: it is where the last token is. -/
def impliedEnd (ts : List Lexeme) : Lexeme :=
  ⟨.eof, (ts.getLast?.map (·.position)).getD .start⟩

/-- The tokens with an end behind them if the last one is none. -/
def terminated (ts : List Lexeme) : List Lexeme :=
  if ts.getLast?.map (·.token) = some .eof then ts else ts ++ [impliedEnd ts]

namespace Walk

/-- What a walk gives that begins at a place, wherever it stops. -/
def answer (w : Walk α) (s : Stream) (pos : Nat) : Option (Except Halt α) :=
  Option.map (Except.map Prod.fst) (w s pos)

/-- The statements of any list of tokens, with calls up to a depth. -/
def parse (n : Nat) (file : String) (ts : List Lexeme) : Option (Except Halt (List Statement)) :=
  (rules n).statements.answer ⟨file, terminated ts⟩ 0

end Walk

end Entitle
