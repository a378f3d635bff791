import Entitle.Proofs.Lines
import Entitle.Proofs.Scanning
import Entitle.Script.Cache

/-!
# Where statements are

Every statement of a script has the place of a word of its text for an origin. Lines and columns are
counted from one, and a place within a text is no further than the text is long, so short texts have
only places whose lines and columns fit in the words that they are kept in.

## Main definitions

* `Position.Behind`: a position that some number of characters leads to.
* `Origin.IsIn`: a place in a script of some length.
* `Statement.Placed`: all origins of a statement have a property.

## Main statements

* `Lexer.behind_of_scan`: where tokens are.
* `Grammar.placed_of_statements`: statements are where tokens are.
* `Text.length_normalForm_le`: the normal form of a text is hardly longer.
* `Script.placed_of_check`: where the statements of a checked script are.
-/
namespace Entitle

/-! ## Positions -/

/-- At most so many characters lead to the position. -/
structure Position.Behind (n : Nat) (p : Position) : Prop where
  line : 1 ≤ p.line
  column : 1 ≤ p.column
  sum_le : p.line + p.column ≤ n + 2

namespace Position

variable {n m : Nat} {p : Position}

private theorem behind_start : start.Behind 0 :=
  ⟨Nat.le_refl 1, Nat.le_refl 1, Nat.le_refl 2⟩

theorem Behind.mono (h : p.Behind n) (hnm : n ≤ m) : p.Behind m :=
  ⟨h.line, h.column, by have := h.sum_le; omega⟩

theorem Behind.after (h : p.Behind n) (c : Char) : (p.after c).Behind (n + 1) := by
  obtain ⟨hline, hcolumn, hsum⟩ := h
  rw [Position.after]
  split
  · exact ⟨by simp, Nat.le_refl 1, by simp; omega⟩
  · exact ⟨hline, by simp, by simp; omega⟩

theorem Behind.afterAll (h : p.Behind n) (cs : List Char) :
    (p.afterAll cs).Behind (n + cs.length) := by
  induction cs generalizing p n with
  | nil => exact h
  | cons c cs ih =>
    rw [afterAll_cons, List.length_cons, Nat.add_comm cs.length, ← Nat.add_assoc]
    exact ih (h.after c)

end Position

/-- The place is in a script with a name, and so many characters lead there. -/
structure Origin.IsIn (file : String) (n : Nat) (o : Origin) : Prop where
  file_eq : o.file = file
  line : 1 ≤ o.line ∧ o.line ≤ n
  column : 1 ≤ o.column ∧ o.column ≤ n

private theorem Position.Behind.isIn {n : Nat} {p : Position} (h : p.Behind n) (file : String) :
    (Origin.ofPosition file p).IsIn file (n + 1) := by
  obtain ⟨hline, hcolumn, hsum⟩ := h
  exact ⟨rfl, ⟨hline, by simp only [Origin.ofPosition]; omega⟩,
    ⟨hcolumn, by simp only [Origin.ofPosition]; omega⟩⟩

/-! ## Tokens -/

/-- A token that is not the end of the script is behind less characters than there are. -/
theorem Lexer.behind_of_scan {file text : String} {ts : List Lexeme} {n : Nat}
    (h : scan file text = .ok ts) (hn : text.length ≤ n + 1) {t : Lexeme} (ht : t ∈ ts)
    (hend : t.token ≠ .eof) : t.position.Behind n := by
  obtain ⟨before, piece, rest, hreads, hpiece, hposition⟩ | ⟨-, rfl⟩ := exists_reads_of_mem h ht
  · have hlength : text.length = before.length + (piece.length + rest.length) := by
      rw [← String.length_toList, hreads.eq_append, List.length_append, List.length_append]
    have hpos := List.length_pos_iff.2 hpiece.ne_nil
    rw [hposition]
    exact (Position.behind_start.afterAll before).mono (by omega)
  · exact absurd rfl hend

/-! ## Statements -/

namespace Statement

mutual

/-- The origins of the statement and of the statements in it have a property. -/
def Placed (P : Origin → Prop) : Statement → Prop
  | directive o _ => P o
  | inclusion o _ => P o
  | define o _ _ => P o
  | cond o _ _ thenBranch elseBranch => P o ∧ AllPlaced P thenBranch ∧ AllPlaced P elseBranch

/-- The origins of the statements have a property. -/
def AllPlaced (P : Origin → Prop) : List Statement → Prop
  | [] => True
  | s :: rest => s.Placed P ∧ AllPlaced P rest

end

mutual

theorem placed_iff {P : Origin → Prop} : ∀ {s : Statement},
    s.Placed P ↔ ∀ o ∈ s.origins, P o
  | directive .. => by simp [Placed, origins]
  | inclusion .. => by simp [Placed, origins]
  | define .. => by simp [Placed, origins]
  | cond .. => by
    rw [Placed, allPlaced_iff, allPlaced_iff, origins, List.forall_mem_cons,
      List.forall_mem_append]

theorem allPlaced_iff {P : Origin → Prop} : ∀ {ss : List Statement},
    AllPlaced P ss ↔ ∀ o ∈ allOrigins ss, P o
  | [] => by simp [AllPlaced, allOrigins]
  | s :: ss => by rw [AllPlaced, placed_iff, allPlaced_iff, allOrigins, List.forall_mem_append]

end

end Statement

namespace Grammar

open Entitle.Parser Entitle.Phrase Entitle.Statement

variable {cx : ParseContext} {P : Origin → Prop}

/-- All places of tokens have a property, except for the end of the script. -/
def Marks (cx : ParseContext) (P : Origin → Prop) (ts : List Lexeme) : Prop :=
  ∀ t ∈ ts, t.token ≠ .eof → P (.ofPosition cx.file t.position)

/-- Statements are where tokens are. -/
theorem placed_of_statements {ts : List Lexeme} {ss : List Statement} (hts : Marks cx P ts)
    (h : statements cx ts = .ok ss) : AllPlaced P ss := by
  obtain ⟨body, tail, rfl, -, hstand, -⟩ := stand_of_statements h
  refine allPlaced_iff.2 fun o ho => ?_
  obtain ⟨t, ht, rfl⟩ := List.mem_map.1 (hstand.origins_sublist.subset ho)
  refine hts t (List.mem_append_left _ ht) fun heof => hstand.written.not_mem ?_
  exact List.mem_map.2 ⟨t, ht, heof⟩

/-- The statements of a text are in the text. -/
theorem placed_of_parse {file text : String} {ss : List Statement} {n : Nat}
    (h : parse file text = .ok ss) (hn : text.length ≤ n + 1) :
    AllPlaced (Origin.IsIn file (n + 1)) ss := by
  cases hscan : Lexer.scan file text with
  | error e =>
    rw [parse, hscan] at h
    cases h
  | ok ts =>
    rw [parse, hscan] at h
    exact placed_of_statements
      (fun t ht hend => (Lexer.behind_of_scan hscan hn ht hend).isIn file) h

end Grammar

/-! ## The length of a text -/

namespace Text

/-- The number of characters of lines, with a line feed for each. -/
def extent : List (List Char) → Nat
  | [] => 0
  | l :: ls => l.length + 1 + extent ls

@[simp] theorem extent_nil : extent [] = 0 := rfl

@[simp] theorem extent_cons (l : List Char) (ls : List (List Char)) :
    extent (l :: ls) = l.length + 1 + extent ls := rfl

theorem length_unifyBreaks_le (cs : List Char) : (unifyBreaks cs).length ≤ cs.length := by
  fun_induction unifyBreaks cs <;> simp only [List.length_cons, List.length_nil] <;> omega

theorem extent_lines_le (cs : List Char) : extent (lines cs) ≤ cs.length + 1 := by
  induction cs with
  | nil => simp [lines]
  | cons c rest ih =>
    rw [lines]
    split
    · rw [extent_cons, List.length_cons, List.length_nil]
      omega
    · split
      · simp
      · next line more hlines =>
        rw [hlines, extent_cons] at ih
        rw [extent_cons, List.length_cons, List.length_cons]
        omega

theorem length_dropEndWhile_le {α : Type} (p : α → Bool) (xs : List α) :
    (dropEndWhile p xs).length ≤ xs.length := by
  obtain ⟨-, ys, hxs, -⟩ := exists_dropEndWhile p xs
  rw [congrArg List.length hxs, List.length_append]
  omega

theorem extent_map_trimEnd_le (ls : List (List Char)) :
    extent (ls.map trimEnd) ≤ extent ls := by
  induction ls with
  | nil => exact Nat.le_refl _
  | cons l ls ih =>
    have := length_dropEndWhile_le isBlank l
    rw [List.map_cons, extent_cons, extent_cons, trimEnd]
    omega

theorem extent_append (ls ms : List (List Char)) : extent (ls ++ ms) = extent ls + extent ms := by
  induction ls with
  | nil => simp
  | cons l ls ih =>
    rw [List.cons_append, extent_cons, extent_cons, ih]
    omega

theorem extent_dropEndWhile_le (p : List Char → Bool) (ls : List (List Char)) :
    extent (dropEndWhile p ls) ≤ extent ls := by
  obtain ⟨-, more, hls, -⟩ := exists_dropEndWhile p ls
  conv_rhs => rw [hls, extent_append]
  exact Nat.le_add_right _ _

/-- Lines with line feeds between them and at the end. -/
theorem length_intercalate_le (ls : List (List Char)) :
    (['\n'].intercalate ls ++ ['\n']).length ≤ max 1 (extent ls) := by
  induction ls with
  | nil => simp
  | cons l ls ih =>
    cases ls with
    | nil => simp
    | cons l' ls =>
      rw [List.intercalate_cons_cons, extent_cons]
      simp only [List.length_append, List.length_singleton] at ih ⊢
      have : 1 ≤ extent (l' :: ls) := by rw [extent_cons]; omega
      omega

/-- The normal form of a text has at most one character more: the line feed at its end. -/
theorem length_normalForm_le (text : String) : (normalForm text).length ≤ text.length + 1 := by
  have hlines : extent (normalLines text.toList) ≤ text.length + 1 :=
    calc extent (normalLines text.toList)
        ≤ extent (lines (unifyBreaks text.toList)) :=
          Nat.le_trans (extent_dropEndWhile_le _ _) (extent_map_trimEnd_le _)
      _ ≤ (unifyBreaks text.toList).length + 1 := extent_lines_le _
      _ ≤ text.length + 1 := Nat.succ_le_succ (length_unifyBreaks_le _)
  rw [normalForm, String.length_ofList]
  exact Nat.le_trans (length_intercalate_le _) (Nat.max_le.2 ⟨Nat.le_add_left .., hlines⟩)

end Text

/-- The statements of a checked script are in its text. -/
theorem Script.placed_of_check {identity text : String} {k : Checked}
    (h : (Script.ofText identity text).check = .ok k) :
    Statement.AllPlaced (Origin.IsIn identity (text.length + 1)) k.statements := by
  rw [Script.check] at h
  split at h
  · cases h
  · next ss hparse =>
    rw [Checked.ofScript] at h
    split at h
    · cases h
    · next hk =>
      split at hk
      · cases hk
        cases h
        exact Grammar.placed_of_parse hparse (Text.length_normalForm_le text)
      · cases hk

end Entitle
