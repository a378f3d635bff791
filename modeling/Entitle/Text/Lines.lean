import Entitle.Text.CharClass

/-!
# Lines and the normal form of a text

A text is kept in a normal form, so that two copies that differ only in line ends, in blanks at
the end of lines or in blank lines at the end of the text are one text.

## Main definitions

* `unifyBreaks`: one line feed for each line break.
* `lines`: the lines of a text; a final line feed ends the last line and begins no other.
* `trimEnd`: a text without the blanks at its end.
* `normalForm`: unified breaks, trimmed lines, no blank lines at the end, one final line feed.

## Main statements

* `not_mem_unifyBreaks`, `unifyBreaks_cons`: carriage returns are replaced, and nothing else.
-/
namespace Entitle.Text

/-! ## Line breaks -/

/-- A carriage return with a line feed, or alone, becomes one line feed. -/
def unifyBreaks : List Char → List Char
  | [] => []
  | '\r' :: '\n' :: rest => '\n' :: unifyBreaks rest
  | c :: rest => (if c = '\r' then '\n' else c) :: unifyBreaks rest

/-- No carriage return is left. -/
theorem not_mem_unifyBreaks (cs : List Char) : '\r' ∉ unifyBreaks cs := by
  fun_induction unifyBreaks cs with
  | case1 => simp
  | case2 rest ih => simpa using ih
  | case3 c rest _ ih =>
    rw [List.mem_cons, not_or]
    refine ⟨?_, ih⟩
    split
    · decide
    · next hc => exact Ne.symm hc

theorem unifyBreaks_cons {c : Char} (hc : c ≠ '\r') (cs : List Char) :
    unifyBreaks (c :: cs) = c :: unifyBreaks cs := by
  rw [unifyBreaks, if_neg hc]
  exact fun _ h => absurd h hc

/-- A carriage return alone is a line break, too. -/
theorem unifyBreaks_cr {cs : List Char} (h : '\n' ∉ cs) :
    unifyBreaks ('\r' :: cs) = '\n' :: unifyBreaks cs := by
  rw [unifyBreaks, if_pos rfl]
  rintro rest - rfl
  exact h List.mem_cons_self

/-- The lines of a text, without their line feeds. -/
def lines : List Char → List (List Char)
  | [] => []
  | c :: rest =>
    if c = '\n' then [] :: lines rest
    else match lines rest with
      | [] => [[c]]
      | line :: more =>
        (c :: line) :: more

/-! ## Ends of lists -/

/-- A list without the longest end whose members all satisfy `p`. -/
def dropEndWhile {α : Type} (p : α → Bool) : List α → List α
  | [] => []
  | x :: rest =>
    match dropEndWhile p rest with
    | [] => if p x then [] else [x]
    | kept => x :: kept

/-- A line without the blanks at its end. -/
def trimEnd (line : List Char) : List Char :=
  dropEndWhile isBlank line

/-- Nothing but blanks. -/
def isBlankText (s : String) : Bool :=
  s.toList.all isBlank

/-! ## Normal form -/

/-- The lines that the normal form consists of. -/
def normalLines (text : List Char) : List (List Char) :=
  dropEndWhile List.isEmpty ((lines (unifyBreaks text)).map trimEnd)

/-- The text form that is digested, parsed and compared. -/
def normalForm (text : String) : String :=
  String.ofList (['\n'].intercalate (normalLines text.toList) ++ ['\n'])

example : normalForm "a \r\n\rb\t\n\n\u00a0" = "a\n\nb\n" := by decide +kernel
example : normalForm "" = "\n" ∧ normalForm " \n\r" = "\n" := by decide +kernel

end Entitle.Text
