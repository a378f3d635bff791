import Entitle.Proofs.Scanning

/-!
# Literals and lines

A literal is closed on the line on which it is opened, or the text cannot be scanned. There is one
way around this: a backslash escapes any character, also a line feed, and an escaped line feed is
part of the literal. Every other line feed, like the end of the text, leaves the literal without a
closing quote, and then the error is at the opening quote.

## Main definitions

* `Lexer.EscapedBreak`: a line feed that is escaped.

## Main statements

* `Lexer.lineFeed_mem_iff`: a line feed in a literal is escaped or it is not.
* `Lexer.scan_literals`: which literals span lines, and which are never closed.
* `Lexer.scan_escapedBreak`: a literal that spans two lines.
-/
namespace Entitle.Lexer

variable {c : Char} {p : Position} {body value cs before rest : List Char} {file : String}

/-- There is an escaped line feed between the quotes. -/
def EscapedBreak (body : List Char) : Prop :=
  HasUnit ['\\', '\n'] body

private theorem not_escapedBreak_nil : ¬ EscapedBreak [] := by
  rintro ⟨front, -, rest, -, heq⟩
  simp at heq

private theorem escapedBreak_cons (hquote : c ≠ '"') (hescape : c ≠ '\\') :
    EscapedBreak (c :: body) ↔ EscapedBreak body := by
  simp [EscapedBreak, hasUnit_cons hquote hescape, List.cons_prefix_cons, hescape.symm]

private theorem escapedBreak_escape :
    EscapedBreak ('\\' :: c :: body) ↔ c = '\n' ∨ EscapedBreak body := by
  simp [EscapedBreak, hasUnit_escape, List.cons_prefix_cons, eq_comm]

/-- A line feed between the quotes is escaped or it is not. -/
theorem lineFeed_mem_iff (h : Quoted body value) :
    '\n' ∈ body ↔ BareBreak body ∨ EscapedBreak body := by
  induction h with
  | nil => simp [not_bareBreak_nil, not_escapedBreak_nil]
  | plain hquote hescape _ ih =>
    rw [List.mem_cons, ih, bareBreak_cons hquote hescape, escapedBreak_cons hquote hescape,
      or_assoc, eq_comm]
  | escape c _ ih =>
    have hslash : '\n' ≠ '\\' := by decide
    rw [List.mem_cons, or_iff_right hslash, List.mem_cons, ih, bareBreak_escape,
      escapedBreak_escape, or_left_comm, eq_comm]

/-- The first piece of a text that begins with a quote is a literal. -/
theorem Piece.exists_literal {piece rest : List Char} {text : String}
    (h : Piece piece (some (.str text)) rest) :
    ∃ body, piece = '"' :: (body ++ ['"']) ∧ Quoted body text.toList ∧ ¬ BareBreak body := by
  generalize htoken : some (Token.str text) = token? at h
  cases h with
  | blank | comment => cases htoken
  | literal rest hbody hbreak =>
    cases htoken
    exact ⟨_, rfl, by rwa [String.toList_ofList], hbreak⟩
  | mark rest h =>
    cases htoken
    rw [Token.punctuation?] at h
    split_ifs at h <;> cases h
  | word => cases htoken

/-- The scanner comes to a quote and stops there exactly if no closing quote comes before a line
feed that is not escaped. -/
theorem scanFrom_eq_error_iff (hreads : Reads cs before ('"' :: rest)) :
    (∃ cause, (cause = .unterminatedString ∨ cause = .unterminatedEscape) ∧
        scanFrom file p cs = .error ⟨.ofPosition file (p.afterAll before), cause⟩) ↔
      ∀ body value after, Quoted body value → rest = body ++ '"' :: after → BareBreak body := by
  constructor
  · rintro ⟨cause, -, herror⟩ body value after hbody rfl
    by_contra hbreak
    have hliteral : '"' :: (body ++ '"' :: after) = '"' :: (body ++ ['"']) ++ after := by simp
    rw [hliteral] at hreads
    exact not_piece_of_error hreads herror (.literal after hbody hbreak)
  · intro hopen
    obtain ⟨ts, hts⟩ := scanFrom_of_reads file p hreads
    obtain ⟨cause, hcause⟩ :=
      exists_readLiteral_error_iff (p := (p.afterAll before).after '"').2 hopen
    refine ⟨cause, cause_of_readLiteral hcause, ?_⟩
    rw [hts, scanFrom_of_readLiteral hcause]
    rfl

/-- Literals and lines. In a text that is scanned, all line feeds in literals are escaped. Where the
scanner comes to an opening quote, it fails there exactly if a line feed that is not escaped or the
end of the text comes before the closing quote. -/
theorem scan_literals (file text : String) :
    (∀ ts, scan file text = .ok ts → ∀ value p, ⟨.str value, p⟩ ∈ ts →
      ∃ before body after, Reads text.toList before ('"' :: (body ++ '"' :: after)) ∧
        p = Position.start.afterAll before ∧ Quoted body value.toList ∧
        ('\n' ∈ body ↔ EscapedBreak body)) ∧
    ∀ before rest, Reads text.toList before ('"' :: rest) →
      ((∃ cause, (cause = .unterminatedString ∨ cause = .unterminatedEscape) ∧
          scan file text = .error ⟨.ofPosition file (Position.start.afterAll before), cause⟩) ↔
        ∀ body value after, Quoted body value → rest = body ++ '"' :: after → BareBreak body) := by
  refine ⟨fun ts hscan value p hmem => ?_, fun before rest hreads => scanFrom_eq_error_iff hreads⟩
  obtain ⟨before, piece, rest, hreads, hpiece, hposition⟩ | ⟨-, heof⟩ :=
    exists_reads_of_mem hscan hmem
  · obtain ⟨body, rfl, hbody, hbreak⟩ := hpiece.exists_literal
    refine ⟨before, body, rest, by simpa using hreads, hposition, hbody, ?_⟩
    rw [lineFeed_mem_iff hbody, or_iff_right hbreak]
  · cases heof

/-- A text in which a closing quote is missing cannot be scanned. -/
theorem scan_literals_unclosed : ∃ cause,
    (cause = .unterminatedString ∨ cause = .unterminatedEscape) ∧
      scan "t" "delete \"/a\n;" = .error ⟨⟨"t", 1, 8⟩, cause⟩ := by
  have hreads : Reads "delete \"/a\n;".toList "delete ".toList ('"' :: "/a\n;".toList) := by
    have hword : Piece "delete".toList (some (.word "delete")) " \"/a\n;".toList :=
      .word (c := 'd') (by decide +kernel) (List.all_eq_true.1 (by decide +kernel)) (by
        rintro d ⟨⟩
        decide)
    exact (Reads.start.next hword).next (.blank (c := ' ') _ (by decide))
  refine ((scan_literals "t" "delete \"/a\n;").2 _ _ hreads).2 fun body value after _ heq => ?_
  have hquote : '"' ∈ "/a\n;".toList := by simp [heq]
  exact absurd hquote (by decide)

/-- A backslash before the line feed keeps a literal open until the quote on the next line. -/
theorem scan_escapedBreak :
    let body := "a\\\nb".toList
    "\"a\\\nb\"".toList = '"' :: (body ++ ['"']) ∧ Quoted body body ∧ '\n' ∈ body ∧
      scan "t" "\"a\\\nb\"" = .ok [⟨.str "a\\\nb", ⟨1, 1⟩⟩, ⟨.eof, ⟨2, 3⟩⟩] := by
  have hbody : Quoted ['a', '\\', '\n', 'b'] ['a', '\\', '\n', 'b'] :=
    .plain (by decide) (by decide) (.escape '\n' (.plain (by decide) (by decide) .nil))
  have hbreak : ¬ BareBreak ['a', '\\', '\n', 'b'] := by
    rw [bareBreak_cons (by decide) (by decide), bareBreak_escape,
      bareBreak_cons (by decide) (by decide)]
    simp [not_bareBreak_nil]
  refine ⟨rfl, hbody, by decide, ?_⟩
  have hscan := scanFrom_piece "t" .start (.literal [] hbody hbreak)
  rw [scanFrom] at hscan
  exact hscan

end Entitle.Lexer
