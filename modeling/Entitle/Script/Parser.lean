import Entitle.Script.ParseError
import Entitle.Script.Statement

/-!
# The reader of statement parts

A reader takes tokens from the front of a list and gives a value or an error at the token where
it stopped. It never goes back and never takes the end of the script, so the list it leaves is no
longer than the list it got.

## Main definitions

* `Parser`: a reader, with the proof that it leaves no more tokens than it got.
* `Parser.keyword`, `Parser.quoted`, `Parser.word`, `Parser.mark`: the readers of one token.
* `Parser.privileges`, `Parser.restrictions`: the readers of lists.

## Main statements

* `Parser.run_bind`, `Parser.run_pure`: what a sequence of readers does.
-/
namespace Entitle

/-- What a reader has to know of the script: its name and the position of its end, for a list of
tokens that does not say. -/
structure ParseContext where
  file : String
  stop : Position
  deriving DecidableEq, Repr

namespace ParseContext

/-- The first token of a list, or the end of the script. -/
def head (cx : ParseContext) : List Lexeme → Lexeme
  | [] => ⟨.eof, cx.stop⟩
  | t :: _ => t

/-- The origin of the first token. -/
def origin (cx : ParseContext) (ts : List Lexeme) : Origin :=
  .ofPosition cx.file (cx.head ts).position

/-- An error about the first token. -/
def errorAt (cx : ParseContext) (ts : List Lexeme) (cause : Token → ParseError.Cause) :
    ParseError :=
  ⟨cx.origin ts, cause (cx.head ts).token⟩

end ParseContext

/-- A reader of a value from the front of a list of tokens. -/
structure Parser (α : Type) where
  run : ParseContext → List Lexeme → Except ParseError (α × List Lexeme)
  length_le : ∀ cx ts a rest, run cx ts = .ok (a, rest) → rest.length ≤ ts.length

namespace Parser

variable {α β : Type}

/-! ## Sequences -/

/-- Take nothing. -/
def pure (a : α) : Parser α where
  run _ ts := .ok (a, ts)
  length_le := by
    intro _ _ _ _ h
    cases h
    exact Nat.le_refl _

/-- Read what follows from where the first reader stopped. -/
def bind (p : Parser α) (f : α → Parser β) : Parser β where
  run cx ts :=
    match p.run cx ts with
    | .error e => .error e
    | .ok (a, rest) => (f a).run cx rest
  length_le := by
    intro cx ts b left h
    cases hp : p.run cx ts with
    | error e => simp [hp] at h
    | ok r =>
      obtain ⟨a, rest⟩ := r
      simp only [hp] at h
      exact Nat.le_trans ((f a).length_le cx rest b left h) (p.length_le cx ts a rest hp)

instance : Monad Parser where
  pure := pure
  bind := bind

@[simp] theorem run_pure (a : α) (cx : ParseContext) (ts : List Lexeme) :
    (Pure.pure a : Parser α).run cx ts = .ok (a, ts) := rfl

@[simp] theorem run_bind (p : Parser α) (f : α → Parser β) (cx : ParseContext)
    (ts : List Lexeme) :
    (p >>= f).run cx ts =
      match p.run cx ts with
      | .error e => .error e
      | .ok (a, rest) => (f a).run cx rest := rfl

/-! ## One token -/

/-- Take the first token if it is of the wanted form, else stop at it. -/
def take (want : Token → Option α) (cause : Token → ParseError.Cause) : Parser α where
  run cx ts :=
    match ts with
    | [] => .error (cx.errorAt [] cause)
    | t :: rest =>
      match want t.token with
      | some a => .ok (a, rest)
      | none => .error (cx.errorAt (t :: rest) cause)
  length_le := by
    intro cx ts a rest h
    cases ts with
    | nil => simp at h
    | cons t more =>
      simp only at h
      split at h
      · cases h
        simp
      · simp at h

/-- A word in lowercase; only the letters of ASCII have a case here. -/
def lowered (word : String) : String :=
  String.ofList (word.toList.map Char.toLower)

/-- The token is a keyword, in letters of either case. -/
def isKeyword (keyword : String) : Token → Bool
  | .word w => lowered w == keyword
  | _ => false

/-- A keyword that has to follow. -/
def keyword (k : String) : Parser Unit :=
  take (fun t => if isKeyword k t then some () else none) (.expectedKeyword k)

/-- A mark that has to follow. -/
def mark (m : Token) : Parser Unit :=
  take (fun t => if t = m then some () else none) (.expectedToken m)

/-- The semicolon at the end of a statement. -/
def finish : Parser Unit :=
  take (fun t => if t = .semi then some () else none) .expectedEnd

/-- A word that is not a keyword of the grammar. -/
def word : Parser String :=
  take (fun t => match t with | .word w => some w | _ => none) .expectedIdentifier

/-- A quoted string; `what` says for the message what it stands for. -/
def quoted (what : String) : Parser String :=
  take (fun t => match t with | .str s => some s | _ => none) (.expectedQuoted what)

/-- Take a keyword if it is there. -/
def optionalKeyword (k : String) : Parser Bool where
  run _ ts :=
    match ts with
    | [] => .ok (false, [])
    | t :: rest => if isKeyword k t.token then .ok (true, rest) else .ok (false, t :: rest)
  length_le := by
    intro _ ts a rest h
    cases ts with
    | nil =>
      cases h
      exact Nat.le_refl _
    | cons t more =>
      simp only at h
      split at h
      · cases h
        simp
      · cases h
        exact Nat.le_refl _

/-- One of two keywords, each with its value. -/
def either (k₁ : String) (a₁ : α) (k₂ : String) (a₂ : α) (cause : Token → ParseError.Cause) :
    Parser α :=
  take (fun t => if isKeyword k₁ t then some a₁ else if isKeyword k₂ t then some a₂ else none)
    cause

/-! ## Lists -/

/-- The name of a privilege: any word but the one that ends the list. -/
def privilege? : Token → Option String
  | .word w => if lowered w == "on" then none else some w
  | _ => none

/-- Privileges with commas between them. -/
def readPrivileges (cx : ParseContext) :
    List Lexeme → Except ParseError (List String × List Lexeme)
  | [] => .error (cx.errorAt [] .expectedPrivilege)
  | [t] =>
    match privilege? t.token with
    | some p => .ok ([p], [])
    | none => .error (cx.errorAt [t] .expectedPrivilege)
  | t :: u :: rest =>
    match privilege? t.token with
    | none => .error (cx.errorAt (t :: u :: rest) .expectedPrivilege)
    | some p =>
      if u.token = .comma then
        (readPrivileges cx rest).map fun (ps, left) => (p :: ps, left)
      else .ok ([p], u :: rest)

private theorem length_readPrivileges {cx : ParseContext} {ts left : List Lexeme} {ps : List String}
    (h : readPrivileges cx ts = .ok (ps, left)) : left.length ≤ ts.length := by
  fun_induction readPrivileges cx ts generalizing ps with
  | case1 => simp at h
  | case2 t p hp =>
    cases h
    simp
  | case3 => simp at h
  | case4 => simp at h
  | case5 t u rest p hp hu ih =>
    cases hr : readPrivileges cx rest with
    | error e => simp [hr, Except.map] at h
    | ok r =>
      obtain ⟨ps', left'⟩ := r
      simp only [hr, Except.map, Except.ok.injEq, Prod.mk.injEq] at h
      obtain ⟨-, rfl⟩ := h
      have := ih hr
      simp only [List.length_cons]
      omega
  | case6 =>
    cases h
    simp

/-- Privileges with commas between them, at least one. -/
def privileges : Parser (List String) where
  run := readPrivileges
  length_le _ _ _ _ h := length_readPrivileges h

/-- The name of a restriction: a word or a string. -/
def restrictionName : Parser String :=
  take (fun t => match t with | .word w => some w | .str s => some s | _ => none)
    .expectedRestriction

/-- One restriction: its name and its value. -/
def restriction : Parser (String × String) := do
  let key ← restrictionName
  mark .eq
  let value ← quoted "restriction value"
  Pure.pure (key, value)

/-- Restrictions with commas between them. -/
def readRestrictions (cx : ParseContext) (ts : List Lexeme) :
    Except ParseError (List (String × String) × List Lexeme) :=
  match h : restriction.run cx ts with
  | .error e => .error e
  | .ok (r, u :: rest) =>
    if u.token = .comma then
      have := restriction.length_le cx ts r (u :: rest) h
      have : rest.length < ts.length := by simp only [List.length_cons] at this; omega
      (readRestrictions cx rest).map fun (rs, left) => (r :: rs, left)
    else .ok ([r], u :: rest)
  | .ok (r, []) => .ok ([r], [])
termination_by ts.length

private theorem length_readRestrictions {cx : ParseContext} {ts left : List Lexeme}
    {rs : List (String × String)} (h : readRestrictions cx ts = .ok (rs, left)) :
    left.length ≤ ts.length := by
  fun_induction readRestrictions cx ts generalizing rs with
  | case1 => simp at h
  | case2 ts r u rest hr hu hle hlt ih =>
    cases hrest : readRestrictions cx rest with
    | error e => simp [hrest, Except.map] at h
    | ok v =>
      obtain ⟨rs', left'⟩ := v
      simp only [hrest, Except.map, Except.ok.injEq, Prod.mk.injEq] at h
      obtain ⟨-, rfl⟩ := h
      have := ih hrest
      omega
  | case3 ts r u rest hr hu =>
    cases h
    exact restriction.length_le _ _ _ _ hr
  | case4 ts r hr =>
    cases h
    simp

/-- Restrictions with commas between them, at least one. -/
def restrictions : Parser (List (String × String)) where
  run := readRestrictions
  length_le _ _ _ _ h := length_readRestrictions h

/-- What a permission is about: privileges, a path and a principal. -/
def grantTarget : Parser (List String × String × String) := do
  let ps ← privileges
  keyword "on"
  let path ← quoted "path"
  keyword "for"
  let principal ← quoted "principal id"
  Pure.pure (ps, path, principal)

end Parser

end Entitle
