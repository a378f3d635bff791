/-!
# Positions and origins

Every token, statement and action knows where it came from, so that a message can point there.

## Main definitions

* `Position`: a line and a column, both counted from one.
* `Position.after`, `Position.afterAll`: the position behind a character, behind a text.
* `Origin`: a position in a named script.
-/
namespace Entitle

/-- A line and a column, counted from one in characters. -/
structure Position where
  line : Nat
  column : Nat
  deriving DecidableEq, Repr, Inhabited

namespace Position

/-- The first character of a text. -/
def start : Position := ⟨1, 1⟩

/-- A line feed begins a line, every other character takes one column. -/
def after (p : Position) (c : Char) : Position :=
  if c = '\n' then ⟨p.line + 1, 1⟩ else ⟨p.line, p.column + 1⟩

/-- The position behind a text that begins at `p`. -/
def afterAll (p : Position) (cs : List Char) : Position :=
  cs.foldl after p

@[simp] theorem afterAll_nil (p : Position) : p.afterAll [] = p := rfl

@[simp] theorem afterAll_cons (p : Position) (c : Char) (cs : List Char) :
    p.afterAll (c :: cs) = (p.after c).afterAll cs := rfl

theorem afterAll_append (p : Position) (cs ds : List Char) :
    p.afterAll (cs ++ ds) = (p.afterAll cs).afterAll ds := by
  simp [afterAll]

end Position

/-- Where a statement came from: the script and the position of its first keyword. -/
structure Origin where
  file : String
  line : Nat
  column : Nat
  deriving DecidableEq, Repr, Inhabited

namespace Origin

/-- The origin at a position of a script. -/
def ofPosition (file : String) (p : Position) : Origin :=
  ⟨file, p.line, p.column⟩

/-- The prefix of a message about this place. -/
def describe (o : Origin) : String :=
  s!"{o.file}:{o.line}:{o.column}"

end Origin

end Entitle
