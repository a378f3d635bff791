import Entitle.Script.Grammar

/-!
# The grammar without its bounds

The functions of the grammar say with each answer that it left less than there was, for that is why
they end. Here are the same functions with plain answers, a value and what is left, and the
equations by which they call each other.

## Main definitions

* `Grammar.readStatement`, `Grammar.readCondition`, `Grammar.readBlock`, `Grammar.readBlockRest`:
  the functions of the grammar.
* `Grammar.readOtherwise`: the second branch of a condition.

## Main statements

* `Grammar.readStatement_cons`, `Grammar.readCondition_eq` and the like: the equations.
-/
namespace Entitle.Grammar

open Entitle.Parser (isKeyword)

variable {α β : Type} {cx : ParseContext} {o : Origin} {t : Lexeme} {ts rest : List Lexeme}

/-! ## Plain answers -/

/-- What was taken, and what is left. -/
def Taken.pair {ts : List Lexeme} (taken : Taken α ts) : α × List Lexeme :=
  (taken.value, taken.rest)

/-- The statement at the front of a list of tokens. -/
def readStatement (cx : ParseContext) (ts : List Lexeme) :
    Except ParseError (Statement × List Lexeme) :=
  (statement cx ts).map Taken.pair

/-- A condition after its first word. -/
def readCondition (cx : ParseContext) (origin : Origin) (ts : List Lexeme) :
    Except ParseError (Statement × List Lexeme) :=
  (condition cx origin ts).map Taken.pair

/-- Statements between braces. -/
def readBlock (cx : ParseContext) (ts : List Lexeme) :
    Except ParseError (List Statement × List Lexeme) :=
  (block cx ts).map Taken.pair

/-- Statements up to a closing brace. -/
def readBlockRest (cx : ParseContext) (opening : Origin) (ts : List Lexeme) :
    Except ParseError (List Statement × List Lexeme) :=
  (blockRest cx opening ts).map Taken.pair

/-- The second branch of a condition, behind the first one: none, a block, or a condition behind
the word that begins it. -/
def readOtherwise (cx : ParseContext) :
    List Lexeme → Except ParseError (List Statement × List Lexeme)
  | [] => .ok ([], [])
  | t :: afterElse =>
    if isKeyword "else" t.token then
      match afterElse with
      | [] => readBlock cx []
      | u :: afterIf =>
        if isKeyword "if" u.token then
          (readCondition cx (cx.origin (u :: afterIf)) afterIf).map fun x => ([x.1], x.2)
        else readBlock cx (u :: afterIf)
    else .ok ([], t :: afterElse)

@[simp] theorem readOtherwise_nil : readOtherwise cx [] = .ok ([], []) := by
  rw [readOtherwise]

theorem readOtherwise_omitted (ht : isKeyword "else" t.token = false) :
    readOtherwise cx (t :: ts) = .ok ([], t :: ts) := by
  simp [readOtherwise.eq_def, ht]

theorem readOtherwise_chain {u : Lexeme} (ht : isKeyword "else" t.token = true)
    (hu : isKeyword "if" u.token = true) : readOtherwise cx (t :: u :: ts) =
      (readCondition cx (cx.origin (u :: ts)) ts).map fun x => ([x.1], x.2) := by
  simp [readOtherwise.eq_def, ht, hu]

theorem readOtherwise_block (ht : isKeyword "else" t.token = true)
    (hu : ∀ u ∈ ts.head?, isKeyword "if" u.token = false) :
    readOtherwise cx (t :: ts) = readBlock cx ts := by
  cases ts with
  | nil => simp [readOtherwise.eq_def, ht]
  | cons u ts => simp [readOtherwise.eq_def, ht, hu u rfl]

theorem map_eq_ok {ε : Type} {x : Except ε α} {f : α → β} {b : β} :
    x.map f = .ok b ↔ ∃ a, x = .ok a ∧ f a = b := by
  cases x <;> simp [Except.map]

theorem bind_eq_ok {ε : Type} {x : Except ε α} {f : α → Except ε β} {b : β} :
    x.bind f = .ok b ↔ ∃ a, x = .ok a ∧ f a = .ok b := by
  cases x <;> simp [Except.bind]

theorem length_of_map_pair {r : Except ParseError (Taken α ts)} {a : α}
    (h : r.map Taken.pair = .ok (a, rest)) : rest.length < ts.length := by
  obtain ⟨taken, -, htaken⟩ := map_eq_ok.1 h
  cases htaken
  exact taken.length_lt

/-- A wider answer has the same plain form. -/
theorem map_pair_widen {us : List Lexeme} {f : α → β} {hle : ts.length ≤ us.length}
    (r : Except ParseError (Taken α ts)) :
    (r.map (·.widen f hle)).map (@Taken.pair β us) =
      (r.map Taken.pair).map fun x => (f x.1, x.2) := by
  cases r <;> rfl

private theorem map_id_pair (r : Except ParseError (α × List Lexeme)) :
    (r.map fun x => (id x.1, x.2)) = r := by
  cases r <;> rfl

/-! ## Equations -/

@[simp] theorem readStatement_nil :
    readStatement cx [] = .error (cx.errorAt [] .expectedStatement) := by
  rw [readStatement, statement.eq_def]
  rfl

/-- The first word of a statement selects its form. -/
theorem readStatement_cons : readStatement cx (t :: ts) =
    match t.token with
    | .word w =>
      if isKeyword "if" (.word w) then readCondition cx (cx.origin (t :: ts)) ts
      else match Keyword.ofWord? w with
        | none => .error (cx.errorAt (t :: ts) fun _ => .unknownKeyword w)
        | some kw => (simple (cx.origin (t :: ts)) kw).run cx ts
    | _ => .error (cx.errorAt (t :: ts) .expectedStatement) := by
  rw [readStatement, statement.eq_def]
  dsimp only
  cases htoken : t.token with
  | word w =>
    dsimp only
    by_cases hif : isKeyword "if" (.word w) = true
    · rw [if_pos hif, if_pos hif, map_pair_widen, map_id_pair]
      rfl
    · rw [if_neg hif, if_neg hif]
      cases hkw : Keyword.ofWord? w with
      | none => rfl
      | some kw =>
        dsimp only
        split
        · next e he =>
          conv => rhs; rw [he]
          rfl
        · next a left hs =>
          conv => rhs; rw [hs]
          rfl
  | _ => rfl

/-- A condition is a test, a block and a second branch. -/
theorem readCondition_eq : readCondition cx o ts =
    (flagTest.run cx ts).bind fun test =>
      (readBlock cx test.2).bind fun first =>
        (readOtherwise cx first.2).map fun second =>
          (.cond o test.1.2 test.1.1 first.1 second.1, second.2) := by
  rw [readCondition, condition.eq_def]
  split
  · next e he =>
    conv => rhs; rw [he]
    rfl
  · next negated flag afterTest htest =>
    conv => rhs; rw [htest]
    show _ = (readBlock cx afterTest).bind _
    dsimp only
    rw [readBlock]
    split
    · next e he =>
      conv => rhs; rw [he]
      rfl
    · next thenBranch afterThen hlength hthen =>
      conv => rhs; rw [hthen]
      show _ = (readOtherwise cx afterThen).map _
      split
      · rfl
      · next t afterElse _ =>
        by_cases ht : isKeyword "else" t.token = true
        · simp only [ht, if_true]
          split
          · rw [readOtherwise_block ht (by simp), map_pair_widen]
            rfl
          · next u afterIf _ _ =>
            by_cases hu : isKeyword "if" u.token = true
            · rw [readOtherwise_chain ht hu, readCondition]
              simp only [hu, if_true]
              cases condition cx (cx.origin (u :: afterIf)) afterIf <;> rfl
            · rw [Bool.not_eq_true] at hu
              rw [readOtherwise_block ht (by simp [hu])]
              simp only [hu, Bool.false_eq_true, if_false]
              rw [map_pair_widen]
              rfl
        · rw [Bool.not_eq_true] at ht
          rw [readOtherwise_omitted ht]
          simp only [ht, Bool.false_eq_true, if_false]
          rfl

/-- A block begins with a brace. -/
theorem readBlock_eq : readBlock cx ts =
    ((Parser.mark .lbrace).run cx ts).bind fun x => readBlockRest cx (cx.origin ts) x.2 := by
  rw [readBlock, block.eq_def]
  cases ts with
  | nil => rfl
  | cons t ts =>
    dsimp only [Parser.mark, Parser.take]
    by_cases ht : t.token = .lbrace
    · simp only [ht, if_true]
      rw [map_pair_widen, map_id_pair]
      rfl
    · simp only [ht, if_false]
      rfl

@[simp] theorem readBlockRest_nil :
    readBlockRest cx o [] = .error ⟨o, .unclosedBlock⟩ := by
  rw [readBlockRest, blockRest]
  rfl

theorem readBlockRest_cons : readBlockRest cx o (t :: ts) =
    if t.token = .rbrace then .ok ([], ts)
    else if t.token = .eof then .error ⟨o, .unclosedBlock⟩
    else (readStatement cx (t :: ts)).bind fun first =>
      (readBlockRest cx o first.2).map fun more => (first.1 :: more.1, more.2) := by
  rw [readBlockRest, blockRest]
  split
  · rfl
  · split
    · rfl
    · rw [readStatement]
      split
      · next e he => rw [he]; rfl
      · next s left hlength hs =>
        rw [hs, map_pair_widen]
        rfl

theorem statements_nil : statements cx [] = .ok [] := by
  rw [statements]

theorem statements_cons : statements cx (t :: ts) =
    if t.token = .eof then .ok []
    else if t.token = .rbrace then .error (cx.errorAt (t :: ts) fun _ => .strayBrace)
    else (readStatement cx (t :: ts)).bind fun first =>
      (statements cx first.2).map (first.1 :: ·) := by
  rw [statements]
  split
  · rfl
  · split
    · rfl
    · rw [readStatement]
      split
      · next e he => rw [he]; rfl
      · next taken hs => rw [hs]; rfl

end Entitle.Grammar
