import Entitle.Json.Reader
import Entitle.Settings.Basic
import Entitle.Text.Segments

/-!
# Values in settings files

Texts stand between quotes: double ones, between which a backslash escapes, or single ones, between
which every character stands for itself. Between three quotes a text may go over several lines.
Numbers are whole, in one of four bases. Every reader returns what follows the value.

## Main definitions

* `readEscape`: the character that an escape stands for.
* `readQuoted`, `readPlain`: texts within a line.
* `readLongQuoted`, `readLongPlain`: texts over several lines.
* `integer?`: the number that a word writes.
* `readValue`: any value.

## Main statements

* `length_readEscape`: what follows an escape is shorter than the escape with it.
-/
namespace Entitle.Settings

/-! ## Characters -/

/-- Control characters cannot be written as themselves, but a tab can. -/
def isForbidden (c : Char) : Bool :=
  (c.toNat < 0x20 && c != '\t') || c.toNat == 0x7f

/-- Blanks within a line. -/
def isSpace (c : Char) : Bool :=
  c == ' ' || c == '\t'

/-- The text from the first character that is no blank. -/
def skipSpaces (cs : List Char) : List Char :=
  cs.dropWhile isSpace

/-- The text after a line break, if it starts with one. -/
def breakLine? : List Char → Option (List Char)
  | '\n' :: rest => some rest
  | '\r' :: '\n' :: rest => some rest
  | _ => none

/-- The text with a character before it. -/
def withChar (c : Char) (found : List Char × List Char) : List Char × List Char :=
  (c :: found.1, found.2)

/-! ## Escapes -/

/-- The character of a hexadecimal number. -/
def scalar? (digits : List Char) : Option Char := do
  let n ← digits.foldlM (fun n d => (Json.hexValue? d).map (16 * n + ·)) 0
  if n.isValidChar then some (Char.ofNat n) else none

/-- The character that a letter after a backslash stands for. -/
def letterEscape? (c : Char) : Option Char :=
  [('b', '\x08'), ('t', '\t'), ('n', '\n'), ('f', '\x0c'), ('r', '\r'), ('"', '"'),
    ('\\', '\\')].lookup c

/-- The character that `count` digits stand for. -/
def readScalar (count : Nat) (cs : List Char) : Option (Char × List Char) :=
  if cs.length < count then none
  else (scalar? (cs.take count)).map fun c => (c, cs.drop count)

/-- The character that an escape stands for, after the backslash. -/
def readEscape : List Char → Option (Char × List Char)
  | [] => none
  | c :: rest =>
    if c = 'u' then readScalar 4 rest
    else if c = 'U' then readScalar 8 rest
    else (letterEscape? c).map fun e => (e, rest)

theorem length_readEscape {cs rest : List Char} {c : Char} (h : readEscape cs = some (c, rest)) :
    rest.length < cs.length := by
  have scalar {count : Nat} {ds : List Char} (h : readScalar count ds = some (c, rest)) :
      rest.length ≤ ds.length := by
    unfold readScalar at h
    split at h
    · simp at h
    · obtain ⟨_, _, h⟩ := Option.map_eq_some_iff.1 h
      obtain ⟨_, rfl⟩ := Prod.mk.inj h
      simp
  cases cs with
  | nil => simp [readEscape] at h
  | cons d ds =>
    rw [readEscape] at h
    rw [List.length_cons]
    split at h
    · exact Nat.lt_succ_of_le (scalar h)
    · split at h
      · exact Nat.lt_succ_of_le (scalar h)
      · obtain ⟨_, _, h⟩ := Option.map_eq_some_iff.1 h
        obtain ⟨_, rfl⟩ := Prod.mk.inj h
        exact Nat.lt_succ_self _

/-! ## Texts within a line -/

/-- A text with escapes, after its opening quote. -/
def readQuoted (cs : List Char) : Option (List Char × List Char) :=
  match cs with
  | [] => none
  | '"' :: rest => some ([], rest)
  | '\\' :: rest =>
    match h : readEscape rest with
    | none => none
    | some (c, left) =>
      have := length_readEscape h
      (readQuoted left).map (withChar c)
  | c :: rest => if isForbidden c then none else (readQuoted rest).map (withChar c)
termination_by cs.length

/-- A text without escapes, after its opening quote. -/
def readPlain : List Char → Option (List Char × List Char)
  | [] => none
  | c :: rest =>
    if c = '\x27' then some ([], rest)
    else if isForbidden c then none
    else (readPlain rest).map (withChar c)

/-! ## Texts over several lines -/

/-- The text after three closing quotes: one or two more of them belong to the text. -/
def closeLong (quote : Char) : List Char → List Char × List Char
  | a :: b :: rest =>
    if a = quote then if b = quote then ([a, b], rest) else ([a], b :: rest)
    else ([], a :: b :: rest)
  | [a] => if a = quote then ([a], []) else ([], [a])
  | [] => ([], [])

/-- Is nothing but blanks left on the line? -/
def endsLine (cs : List Char) : Bool :=
  (breakLine? (skipSpaces cs)).isSome

/-- A text with escapes over several lines, after its opening quotes. A backslash at the end of a
line leads to the next character that is no blank and no line break; `skipping` says that we are on
the way there. -/
def readLongQuoted (skipping : Bool) (cs : List Char) : Option (List Char × List Char) :=
  match cs with
  | [] => none
  | '"' :: '"' :: '"' :: rest => some (closeLong '"' rest)
  | '\\' :: rest =>
    if endsLine rest then readLongQuoted true rest
    else match h : readEscape rest with
      | none => none
      | some (c, left) =>
        have := length_readEscape h
        (readLongQuoted false left).map (withChar c)
  | '\r' :: '\n' :: rest =>
    if skipping then readLongQuoted true rest
    else (readLongQuoted false rest).map (withChar '\n')
  | c :: rest =>
    if skipping && (isSpace c || c == '\n') then readLongQuoted true rest
    else if isForbidden c && c != '\n' then none
    else (readLongQuoted false rest).map (withChar c)
termination_by cs.length

/-- A text without escapes over several lines, after its opening quotes. -/
def readLongPlain : List Char → Option (List Char × List Char)
  | [] => none
  | '\x27' :: '\x27' :: '\x27' :: rest => some (closeLong '\x27' rest)
  | '\r' :: '\n' :: rest => (readLongPlain rest).map (withChar '\n')
  | c :: rest =>
    if isForbidden c && c != '\n' then none
    else (readLongPlain rest).map (withChar c)

/-- A text of any kind. A line break right after three quotes is no part of it. -/
def readText : List Char → Option (List Char × List Char)
  | '"' :: '"' :: '"' :: rest => readLongQuoted false ((breakLine? rest).getD rest)
  | '"' :: rest => readQuoted rest
  | '\x27' :: '\x27' :: '\x27' :: rest => readLongPlain ((breakLine? rest).getD rest)
  | '\x27' :: rest => readPlain rest
  | _ => none

/-! ## Numbers -/

/-- The number that groups of digits write in a base, with one underscore between two groups. -/
def digits? (base : Nat) (cs : List Char) : Option Nat :=
  let groups := Text.splitAt (· == '_') cs
  if groups.any List.isEmpty then none
  else groups.flatten.foldlM
    (fun n d => ((Json.hexValue? d).filter (· < base)).map (base * n + ·)) 0

/-- A decimal number begins with a zero only if it has no other digit. -/
def decimal? (cs : List Char) : Option Nat :=
  if cs.head? = some '0' ∧ cs ≠ ['0'] then none else digits? 10 cs

/-- The number that a word writes. Only decimal numbers may have a sign. -/
def anyInteger? : List Char → Option Int
  | '0' :: 'x' :: cs => (digits? 16 cs).map Int.ofNat
  | '0' :: 'o' :: cs => (digits? 8 cs).map Int.ofNat
  | '0' :: 'b' :: cs => (digits? 2 cs).map Int.ofNat
  | '+' :: cs => (decimal? cs).map Int.ofNat
  | '-' :: cs => (decimal? cs).map fun n => -Int.ofNat n
  | cs => (decimal? cs).map Int.ofNat

/-- The number that a word writes, if a signed word of 64 bits holds it. -/
def integer? (cs : List Char) : Option Int :=
  (anyInteger? cs).filter fun n => Int64.minValue.toInt ≤ n ∧ n ≤ Int64.maxValue.toInt

/-! ## Values -/

/-- Does the character end a number? -/
def endsNumber (c : Char) : Bool :=
  isSpace c || c == '#' || c == '\n' || c == '\r'

/-- A value. -/
def readValue (cs : List Char) : Option (SettingValue × List Char) :=
  if cs.head? = some '"' ∨ cs.head? = some '\x27' then
    (readText cs).map fun (text, left) => (.text (String.ofList text), left)
  else
    (integer? (cs.takeWhile (!endsNumber ·))).map fun n =>
      (.number n, cs.dropWhile (!endsNumber ·))

end Entitle.Settings
