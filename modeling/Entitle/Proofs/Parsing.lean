import Entitle.Proofs.Standing

/-!
# Scripts are read as they are written

The statements of a list of tokens are the ones that are written in it, and whatever is written can
be read. What is read stands in the tokens; what is written is followed along its written form.
Behind a written statement the reader only looks for the word that would begin a second branch, and
no statement begins with it.

## Main statements

* `Grammar.written_of_statements`: what was read was written in the tokens.
* `Grammar.readStatement_of_written`: what is written at the front of the tokens is read.
* `Grammar.parseTokens_eq_ok_iff`: a script has the statements that are written in its tokens.
-/
namespace Entitle

open Entitle.Parser (isKeyword lowered)

namespace Grammar

open Entitle.Parser Phrase Statement

variable {cx : ParseContext} {ts rest : List Lexeme}

/-! ## What is read was written -/

/-- The statements that were read were written up to the end of the script. -/
theorem written_of_statements {ts : List Lexeme} {ss : List Statement}
    (h : statements cx ts = .ok ss) : ∃ body tail, ts.map (·.token) = body ++ tail ∧
      (tail = [] ∨ ∃ more, tail = .eof :: more) ∧ AllWritten ss body ∧ AllClear ss := by
  obtain ⟨front, left, rfl, hleft, hstand, hclear⟩ := stand_of_statements h
  refine ⟨_, _, List.map_append, ?_, hstand.written, hclear⟩
  cases left with
  | nil => exact .inl rfl
  | cons t left => exact .inr ⟨_, congrArg (· :: _) (hleft t rfl)⟩

/-! ## What is written is read -/

/-- A word that begins a condition selects its reader. -/
theorem readStatement_of_if {t : Lexeme} (ht : isKeyword "if" t.token = true) :
    readStatement cx (t :: ts) = readCondition cx (cx.origin (t :: ts)) ts := by
  rw [readStatement_cons]
  cases htoken : t.token with
  | word w =>
    rw [htoken] at ht
    exact if_pos ht
  | _ =>
    rw [htoken] at ht
    cases ht

/-- A statement without a block is read by the reader of its first word. -/
theorem readStatement_of_keyword {kw : Keyword} {t : Lexeme}
    (ht : isKeyword kw.text t.token = true) :
    readStatement cx (t :: ts) = (simple (cx.origin (t :: ts)) kw).run cx ts := by
  rw [readStatement_cons]
  cases htoken : t.token with
  | word w =>
    rw [htoken] at ht
    have hif : isKeyword "if" (.word w) = false := isKeyword_eq_false ht kw.text_ne_if
    dsimp only
    rw [hif, Keyword.ofWord?_eq_some.2 ht]
    rfl
  | _ =>
    rw [htoken] at ht
    cases ht

/-- A condition is read if its test and its branches are. -/
theorem readCondition_of_branches {o : Origin} {negated : Bool} {flag : String}
    {afterTest afterThen : List Lexeme} {thenBranch elseBranch : List Statement}
    (htest : flagTest.run cx ts = .ok ((negated, flag), afterTest))
    (hthen : readBlock cx afterTest = .ok (thenBranch, afterThen))
    (helse : readOtherwise cx afterThen = .ok (elseBranch, rest)) :
    readCondition cx o ts = .ok (.cond o flag negated thenBranch elseBranch, rest) := by
  rw [readCondition_eq]
  exact bind_eq_ok.2 ⟨_, htest, bind_eq_ok.2 ⟨_, hthen, map_eq_ok.2 ⟨_, helse, rfl⟩⟩⟩

private theorem readOtherwise_of_lacks (h : Lacks (.spelled "else") ts) :
    readOtherwise cx ts = .ok ([], ts) := by
  cases ts with
  | nil => exact readOtherwise_nil
  | cons t ts => exact readOtherwise_omitted (lacks_cons.1 h)

private theorem readBlock_of_brace {t : Lexeme} (ht : t.token = .lbrace) :
    readBlock cx (t :: ts) = readBlockRest cx (cx.origin (t :: ts)) ts := by
  rw [readBlock_eq]
  have hmark : (mark .lbrace).run cx (t :: ts) = .ok ((), ts) :=
    mark_eq_ok.2 (leads_singleton.2 ⟨t, rfl, by simp [Slot.mark, ht]⟩)
  rw [hmark]
  rfl

/-- A block goes on with the statement in front of it. -/
theorem readBlockRest_of_statement {o : Origin} {t : Lexeme} {mid : List Lexeme} {s : Statement}
    {ss : List Statement} (hbrace : t.token ≠ .rbrace) (heof : t.token ≠ .eof)
    (hfirst : readStatement cx (t :: ts) = .ok (s, mid))
    (hmore : readBlockRest cx o mid = .ok (ss, rest)) :
    readBlockRest cx o (t :: ts) = .ok (s :: ss, rest) := by
  rw [readBlockRest_cons, if_neg hbrace, if_neg heof]
  exact bind_eq_ok.2 ⟨_, hfirst, map_eq_ok.2 ⟨_, hmore, rfl⟩⟩

/-- A script goes on with the statement in front of it. -/
theorem statements_of_statement {t : Lexeme} {mid : List Lexeme} {s : Statement}
    {ss : List Statement} (hbrace : t.token ≠ .rbrace) (heof : t.token ≠ .eof)
    (hfirst : readStatement cx (t :: ts) = .ok (s, mid)) (hmore : statements cx mid = .ok ss) :
    statements cx (t :: ts) = .ok (s :: ss) := by
  rw [statements_cons, if_neg heof, if_neg hbrace]
  exact bind_eq_ok.2 ⟨_, hfirst, map_eq_ok.2 ⟨_, hmore, rfl⟩⟩

/-- A written statement begins neither with the end of a block nor with the end of the script. -/
theorem exists_cons_of_written {s : Statement} {lex : List Lexeme}
    (h : Written s (lex.map (·.token))) :
    ∃ t left, lex = t :: left ∧ t.token ≠ .rbrace ∧ t.token ≠ .eof := by
  obtain ⟨k, _, _, hkeyword, hk, -⟩ := h.exists_keyword
  obtain ⟨t, left, rfl, rfl, -⟩ := List.map_eq_cons_iff.1 hkeyword
  refine ⟨t, left, rfl, ?_, (ne_eof_of_isKeyword hk).symm⟩
  intro hbrace
  rw [hbrace] at hk
  cases hk

/-- Written statements begin with no second branch. -/
theorem lacks_of_written {ss : List Statement} {lex : List Lexeme}
    (h : AllWritten ss (lex.map (·.token))) (hrest : Lacks (.spelled "else") rest) :
    Lacks (.spelled "else") (lex ++ rest) := by
  generalize hfront : lex.map (·.token) = front at h
  cases h with
  | nil =>
    rw [List.map_eq_nil_iff.1 hfront]
    exact hrest
  | cons hfirst hmore =>
    obtain ⟨k, t, first, rfl, ht, hk⟩ := hfirst.exists_keyword
    obtain ⟨u, left, rfl, rfl, -⟩ := List.map_eq_cons_iff.1 hfront
    exact lacks_cons.2 (isKeyword_eq_false ht hk)

/- The recursion is on the statements; the second branch of a condition is only another view of
them, so it counts for more than the same statements in a block. -/
mutual

/-- A written statement is read if no second branch begins behind it. -/
theorem readStatement_of_written {s : Statement} {front : List Token} {rest : List Lexeme} :
    Written s front → s.Clear → Lacks (.spelled "else") rest → ∀ lex : List Lexeme,
      lex.map (·.token) = front → ∃ s', readStatement cx (lex ++ rest) = .ok (s', rest) ∧
        s'.unplaced = s.unplaced
  | .simple hphrase hfits, hclear, _, lex, hlex => by
    cases hfits with
    | cons ht hfits =>
      obtain ⟨t, left, rfl, rfl, rfl⟩ := List.map_eq_cons_iff.1 hlex
      obtain ⟨s', hs', hunplaced⟩ :=
        exists_simple_eq_ok hclear hphrase (leads_iff.2 ⟨left, rfl, hfits⟩)
      exact ⟨s', (readStatement_of_keyword ht).trans hs', hunplaced⟩
  | .cond htest hthen helse, ⟨hflag, hclear, hclears⟩, hrest, lex, hlex => by
    obtain ⟨first, afterTest, rfl, rfl, hafterTest⟩ := List.map_eq_append_iff.1 hlex
    obtain ⟨b, afterBrace, rfl, hb, hafterBrace⟩ := List.map_eq_cons_iff.1 hafterTest
    obtain ⟨body, afterBody, rfl, hbody, hafterBody⟩ := List.map_eq_append_iff.1 hafterBrace
    obtain ⟨c, tail, rfl, hc, htail⟩ := List.map_eq_cons_iff.1 hafterBody
    generalize hfront : first.map (·.token) = front at htest
    cases htest with
    | cons ht htest =>
      obtain ⟨t, test, rfl, rfl, rfl⟩ := List.map_eq_cons_iff.1 hfront
      -- the tokens in the order in which the reader takes them
      have hsplit : t :: test ++ b :: (body ++ c :: tail) ++ rest =
          t :: (test ++ b :: (body ++ c :: (tail ++ rest))) := by simp
      obtain ⟨ss, hss, hthen⟩ := readBlockRest_of_written hthen hclear body c hbody hc
      obtain ⟨es, hes, helse⟩ := readOtherwise_of_written helse hclears hrest tail htail
      rw [hsplit, readStatement_of_if ht]
      refine ⟨_, readCondition_of_branches
        (flagTest_eq_ok.2 ⟨hflag, leads_iff.2 ⟨test, rfl, htest⟩⟩)
        ((readBlock_of_brace hb).trans hss) hes, ?_⟩
      simp [unplaced, hthen, helse]
termination_by (sizeOf s, 0)

theorem readBlockRest_of_written {ss : List Statement} {body : List Token} {rest : List Lexeme}
    {o : Origin} :
    AllWritten ss body → AllClear ss → ∀ (lex : List Lexeme) (t : Lexeme),
      lex.map (·.token) = body → t.token = .rbrace →
        ∃ ss', readBlockRest cx o (lex ++ t :: rest) = .ok (ss', rest) ∧
          allUnplaced ss' = allUnplaced ss
  | .nil, _, lex, t, hlex, ht => by
    obtain rfl := List.map_eq_nil_iff.1 hlex
    rw [List.nil_append, readBlockRest_cons, if_pos ht]
    exact ⟨_, rfl, rfl⟩
  | .cons hfirst hmore, ⟨hclear, hclears⟩, lex, t, hlex, ht => by
    obtain ⟨first, more, rfl, rfl, rfl⟩ := List.map_eq_append_iff.1 hlex
    have hrest : Lacks (.spelled "else") (more ++ t :: rest) :=
      lacks_of_written hmore (lacks_cons.2 (by rw [ht]; rfl))
    obtain ⟨u, left, rfl, hbrace, heof⟩ := exists_cons_of_written hfirst
    obtain ⟨s', hs', hs⟩ := readStatement_of_written hfirst hclear hrest (u :: left) rfl
    obtain ⟨ss', hss', hss⟩ := readBlockRest_of_written hmore hclears more t rfl ht
    rw [List.append_assoc]
    exact ⟨s' :: ss', readBlockRest_of_statement hbrace heof hs' hss', by
      simp [allUnplaced, hs, hss]⟩
termination_by (sizeOf ss, 0)

private theorem readOtherwise_of_written {ss : List Statement} {tail : List Token}
    {rest : List Lexeme} :
    ElseWritten ss tail → AllClear ss → Lacks (.spelled "else") rest → ∀ lex : List Lexeme,
      lex.map (·.token) = tail → ∃ ss', readOtherwise cx (lex ++ rest) = .ok (ss', rest) ∧
        allUnplaced ss' = allUnplaced ss
  | .omitted, _, hrest, lex, hlex => by
    obtain rfl := List.map_eq_nil_iff.1 hlex
    exact ⟨[], readOtherwise_of_lacks hrest, rfl⟩
  | .block ht hbody, hclear, _, lex, hlex => by
    obtain ⟨t, afterElse, rfl, rfl, hafterElse⟩ := List.map_eq_cons_iff.1 hlex
    obtain ⟨b, afterBrace, rfl, hb, hafterBrace⟩ := List.map_eq_cons_iff.1 hafterElse
    obtain ⟨body, afterBody, rfl, hbody', hafterBody⟩ := List.map_eq_append_iff.1 hafterBrace
    obtain ⟨c, _, rfl, hc, hnil⟩ := List.map_eq_cons_iff.1 hafterBody
    obtain rfl := List.map_eq_nil_iff.1 hnil
    have hsplit : t :: b :: (body ++ [c]) ++ rest = t :: b :: (body ++ c :: rest) := by simp
    have hbrace : ∀ u ∈ (b :: (body ++ c :: rest)).head?, isKeyword "if" u.token = false := by
      rintro u ⟨⟩
      rw [hb]
      rfl
    rw [hsplit, readOtherwise_block ht hbrace, readBlock_of_brace hb]
    exact readBlockRest_of_written hbody hclear body c hbody' hc
  | .chain ht hcond hmore, ⟨hclear, _⟩, hrest, lex, hlex => by
    obtain ⟨t, more, rfl, rfl, hmore'⟩ := List.map_eq_cons_iff.1 hlex
    obtain ⟨_, _, hif, hu⟩ := hmore.exists_if hcond
    obtain ⟨u, afterIf, rfl, rfl, -⟩ := List.map_eq_cons_iff.1 (hmore'.trans hif)
    obtain ⟨s', hs', hs⟩ := readStatement_of_written hmore hclear hrest (u :: afterIf) hmore'
    rw [List.cons_append, readStatement_of_if hu] at hs'
    rw [List.cons_append, List.cons_append, readOtherwise_chain ht hu]
    exact ⟨[s'], map_eq_ok.2 ⟨_, hs', rfl⟩, by simp [allUnplaced, hs]⟩
termination_by (sizeOf ss, 1)

end

/-- Written statements are read up to the end of the script. -/
theorem statements_of_written {ss : List Statement} {body : List Token}
    (h : AllWritten ss body) (hclear : AllClear ss) (lex : List Lexeme) (t : Lexeme)
    (hlex : lex.map (·.token) = body) (ht : t.token = .eof) :
    ∃ ss', statements cx (lex ++ [t]) = .ok ss' ∧ allUnplaced ss' = allUnplaced ss := by
  induction ss generalizing lex body with
  | nil =>
    cases h
    obtain rfl := List.map_eq_nil_iff.1 hlex
    rw [List.nil_append, statements_cons, if_pos ht]
    exact ⟨[], rfl, rfl⟩
  | cons s ss ih =>
    cases h with
    | cons hfirst hmore =>
      obtain ⟨hs, hss⟩ := hclear
      obtain ⟨first, more, rfl, rfl, rfl⟩ := List.map_eq_append_iff.1 hlex
      have hrest : Lacks (.spelled "else") (more ++ [t]) :=
        lacks_of_written hmore (lacks_cons.2 (by rw [ht]; rfl))
      obtain ⟨u, left, rfl, hbrace, heof⟩ := exists_cons_of_written hfirst
      obtain ⟨s', hread, hs'⟩ := readStatement_of_written hfirst hs hrest (u :: left) rfl
      obtain ⟨ss', hss', hunplaced⟩ := ih hmore hss more rfl
      rw [List.append_assoc]
      exact ⟨s' :: ss', statements_of_statement hbrace heof hread hss', by
        simp [allUnplaced, hs', hunplaced]⟩

/-- The statements of a script are those that are written in its tokens, up to their positions. -/
theorem parseTokens_eq_ok_iff (file : String) (body : List Lexeme) (p : Position)
    (ss : List Statement) :
    ((∀ t ∈ body, t.token ≠ .eof) ∧ ∃ ss', parseTokens file (body ++ [⟨.eof, p⟩]) = .ok ss' ∧
        allUnplaced ss' = allUnplaced ss) ↔
      AllWritten ss (body.map (·.token)) ∧ AllClear ss := by
  constructor
  · rintro ⟨hbody, ss', hss', hunplaced⟩
    obtain ⟨front, tail, hfront, htail, hwritten, hclear⟩ := written_of_statements hss'
    suffices hfront : front = body.map (·.token) by
      subst hfront
      refine ⟨hwritten.of_unplaced hunplaced.symm, ?_⟩
      rwa [← allClear_unplaced, ← hunplaced, allClear_unplaced]
    have heof : Token.eof ∉ body.map (·.token) := by
      simpa [eq_comm] using hbody
    rw [List.map_append] at hfront
    rcases htail with rfl | ⟨more, rfl⟩
    · refine absurd ?_ hwritten.not_mem
      rw [← List.append_nil front, ← hfront]
      simp
    · exact ((List.append_cons_inj_of_notMem heof List.not_mem_nil).1 hfront).1.symm
  · rintro ⟨hwritten, hclear⟩
    refine ⟨fun t ht heof => hwritten.not_mem ?_, ?_⟩
    · exact heof ▸ List.mem_map_of_mem ht
    · exact statements_of_written hwritten hclear body ⟨.eof, p⟩ rfl rfl

end Grammar

end Entitle
