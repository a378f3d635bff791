import Entitle.Script.ParseError

/-!
# Reading tokens

The tokens of a text from left to right, each as long as it can be. The last one is the end of the
script at the position behind the text.

## Main definitions

* `readLiteral`: the value of a string literal after its opening quote.
* `scanFrom`, `scan`: the tokens of a text.

## Main statements

* `length_readLiteral`: a literal takes at least its closing quote from the text.
-/
namespace Entitle.Lexer

/-! ## String literals -/

/-- The character that an escape stands for; an escape of any other character stands for the
backslash and that character. -/
def unescape (c : Char) : List Char :=
  if c = 'n' then ['\n']
  else if c = 't' then ['\t']
  else if c = '"' then ['"']
  else if c = '\\' then ['\\']
  else ['\\', c]

/-- The value of a literal after its opening quote at `p`, the position behind the closing quote
and the rest of the text. -/
def readLiteral (p : Position) :
    List Char → Except ParseError.Cause (List Char × Position × List Char)
  | [] => .error .unterminatedString
  | ['\\'] => .error .unterminatedEscape
  | '\\' :: c :: rest =>
    (readLiteral ((p.after '\\').after c) rest).map fun (value, q, left) =>
      (unescape c ++ value, q, left)
  | c :: rest =>
    if c = '"' then .ok ([], p.after c, rest)
    else if c = '\n' then .error .unterminatedString
    else (readLiteral (p.after c) rest).map fun (value, q, left) => (c :: value, q, left)

theorem length_readLiteral {p q : Position} {cs value left : List Char}
    (h : readLiteral p cs = .ok (value, q, left)) : left.length < cs.length := by
  fun_induction readLiteral p cs generalizing value with
  | case1 => simp at h
  | case2 => simp at h
  | case3 p c rest ih =>
    cases hr : readLiteral ((p.after '\\').after c) rest with
    | error e => simp [hr, Except.map] at h
    | ok r =>
      obtain ⟨value', q', left'⟩ := r
      simp only [hr, Except.map, Except.ok.injEq, Prod.mk.injEq] at h
      obtain ⟨-, rfl, rfl⟩ := h
      have := ih hr
      simp only [List.length_cons]
      omega
  | case4 p rest hne =>
    simp only [Except.ok.injEq, Prod.mk.injEq] at h
    obtain ⟨-, -, rfl⟩ := h
    simp
  | case5 => simp at h
  | case6 p c rest _ _ hquote hbreak ih =>
    cases hr : readLiteral (p.after c) rest with
    | error e => simp [hr, Except.map] at h
    | ok r =>
      obtain ⟨value', q', left'⟩ := r
      simp only [hr, Except.map, Except.ok.injEq, Prod.mk.injEq] at h
      obtain ⟨-, rfl, rfl⟩ := h
      have := ih hr
      simp only [List.length_cons]
      omega

/-! ## Tokens -/

/-- The tokens of the text `cs` that begins at `p`. A blank or a comment is passed over, a quote
begins a string, a mark is a token of its own and a letter begins a word. -/
def scanFrom (file : String) (p : Position) (cs : List Char) : Except ParseError (List Lexeme) :=
  match cs with
  | [] => .ok [⟨.eof, p⟩]
  | c :: rest =>
    if Text.isBlank c then scanFrom file (p.after c) rest
    else if c = '#' then
      scanFrom file ((p.after c).afterAll (rest.takeWhile (· != '\n')))
        (rest.dropWhile (· != '\n'))
    else if c = '"' then
      match h : readLiteral (p.after c) rest with
      | .error cause => .error ⟨.ofPosition file p, cause⟩
      | .ok (value, q, left) =>
        have : left.length < rest.length := length_readLiteral h
        (scanFrom file q left).map (⟨.str (String.ofList value), p⟩ :: ·)
    else
      match Token.punctuation? c with
      | some mark => (scanFrom file (p.after c) rest).map (⟨mark, p⟩ :: ·)
      | none =>
        if isWordStart c then
          let word := c :: rest.takeWhile isWordChar
          (scanFrom file (p.afterAll word) (rest.dropWhile isWordChar)).map
            (⟨.word (String.ofList word), p⟩ :: ·)
        else .error ⟨.ofPosition file p, .unexpectedCharacter c⟩
termination_by cs.length
decreasing_by
  all_goals
    simp only [List.length_cons]
    first
      | omega
      | exact Nat.lt_succ_of_le (List.dropWhile_sublist _).length_le

/-- The tokens of a text. -/
def scan (file : String) (text : String) : Except ParseError (List Lexeme) :=
  scanFrom file .start text.toList

end Entitle.Lexer
