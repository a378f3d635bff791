import Entitle.Proofs.Parsing
import Entitle.Script.Lexer

/-!
# Texts and their tokens

A text is read piece by piece, where a piece is a token, a blank or a comment. Which piece comes
first is said here without a scanner: a literal ends with the first quote that is not escaped, and a
word and a comment with the first character that cannot go on with them. The tokens of a text are
the tokens of its pieces, each at the position behind the pieces before it. When a text cannot be
scanned, the error is where its pieces end.

## Main definitions

* `Lexer.Quoted`: what stands between the quotes of a literal, with the value that it writes.
* `Lexer.BareBreak`: a line feed in it that is not escaped.
* `Lexer.Piece`: a piece that is read at the beginning of a text.
* `Lexer.Reads`: the pieces that lead from a text to a rest of it.

## Main statements

* `Lexer.readLiteral_eq_ok_iff`: which literals are read.
* `Lexer.scanFrom_piece`: a piece is scanned apart from what follows it.
* `Lexer.exists_reads_of_mem`: every token of a text is one of its pieces.
* `Lexer.exists_reads_of_error`, `Lexer.not_piece_of_error`: an error is where the pieces end.
-/
namespace Entitle

/-! ## Positions -/

namespace Position

variable {p : Position} {cs : List Char}

private theorem line_after_le (p : Position) (c : Char) : p.line ≤ (p.after c).line := by
  rw [after]
  split <;> simp

private theorem line_afterAll_le (p : Position) (cs : List Char) :
    p.line ≤ (p.afterAll cs).line := by
  induction cs generalizing p with
  | nil => exact Nat.le_refl _
  | cons c cs ih => exact Nat.le_trans (p.line_after_le c) (ih (p.after c))

/-- A text ends on a later line than it begins, or it ends on the same line, further behind. -/
theorem lt_afterAll (p : Position) (cs : List Char) :
    p.line < (p.afterAll cs).line ∨
      (p.afterAll cs).line = p.line ∧ (p.afterAll cs).column = p.column + cs.length := by
  induction cs generalizing p with
  | nil => simp
  | cons c cs ih =>
    rw [afterAll_cons]
    by_cases hc : c = '\n'
    · have hline : (p.after c).line = p.line + 1 := by rw [after, if_pos hc]
      have hle := (p.after c).line_afterAll_le cs
      omega
    · have hafter : p.after c = ⟨p.line, p.column + 1⟩ := if_neg hc
      rw [hafter, List.length_cons, ← Nat.add_assoc, Nat.add_right_comm]
      exact ih ⟨p.line, p.column + 1⟩

/-- Behind a text is another position than before it. -/
theorem afterAll_ne (p : Position) (h : cs ≠ []) : p.afterAll cs ≠ p := by
  intro heq
  have hpos := List.length_pos_iff.2 h
  rcases p.lt_afterAll cs with hlt | ⟨-, hcolumn⟩
  · rw [heq] at hlt
    omega
  · rw [heq] at hcolumn
    omega

end Position

private theorem Origin.ofPosition_inj {file : String} {p q : Position} :
    ofPosition file p = ofPosition file q ↔ p = q := by
  cases p
  cases q
  simp [ofPosition]

/-! ## Classes of characters -/

/-- No blank is in a class that shares no code with the blanks. -/
theorem Text.inRanges_of_isBlank {rs : List CodeRange} (hrs : ∀ r ∈ blankRanges,
    ∀ n ∈ List.range' r.1 (r.2 + 1 - r.1), inRanges n rs = false) {c : Char}
    (h : isBlank c = true) : inRanges c.toNat rs = false := by
  obtain ⟨r, hr, hfirst, hlast⟩ := exists_of_inRanges h
  exact hrs r hr c.toNat (List.mem_range'_1.2 ⟨hfirst, by omega⟩)

/-- No blank stands in a word. -/
theorem isWordChar_of_isBlank {c : Char} (h : Text.isBlank c = true) : isWordChar c = false := by
  have hletter : Text.isAlphabetic c = false := Text.inRanges_of_isBlank (by decide +kernel) h
  have hnumber : Text.isNumeric c = false := Text.inRanges_of_isBlank (by decide +kernel) h
  rw [isWordChar, Text.isAlphanumeric, hletter, hnumber, Bool.or_self, Bool.false_or]
  by_contra hmark
  simp only [Bool.not_eq_false, Bool.or_eq_true, beq_iff_eq] at hmark
  rcases hmark with ((rfl | rfl) | rfl) | rfl <;> exact absurd h (by decide)

theorem isBlank_of_isWordChar {c : Char} (h : isWordChar c = true) : Text.isBlank c = false := by
  by_contra hblank
  rw [Bool.not_eq_false] at hblank
  rw [isWordChar_of_isBlank hblank] at h
  cases h

namespace Lexer

open Grammar (map_eq_ok)

variable {c : Char} {p q : Position} {body value left cs before piece rest : List Char}
  {token? : Option Token} {file : String}

private theorem mem_of_punctuation? {token : Token} (h : Token.punctuation? c = some token) :
    c ∈ [';', ',', '=', '\x7b', '\x7d'] := by
  rw [Token.punctuation?] at h
  split_ifs at h <;> simp [*]

private theorem punctuation?_of_isWordStart (h : isWordStart c = true) :
    Token.punctuation? c = none := by
  rw [Option.eq_none_iff_forall_ne_some]
  intro token htoken
  have hmarks : ∀ c ∈ [';', ',', '=', '\x7b', '\x7d'], (!isWordStart c) = true :=
    List.all_eq_true.1 (by decide +kernel)
  have hmark := hmarks c (mem_of_punctuation? htoken)
  rw [h] at hmark
  cases hmark

/-! ## Literals -/

/-- What stands between the quotes of a literal, and the value that it writes. A backslash escapes
the character behind it; every other character but a quote stands for itself. -/
inductive Quoted : List Char → List Char → Prop
  | nil : Quoted [] []
  | plain {c : Char} {body value : List Char} (hquote : c ≠ '"') (hescape : c ≠ '\\')
    (h : Quoted body value) : Quoted (c :: body) (c :: value)
  | escape (c : Char) {body value : List Char} (h : Quoted body value) :
    Quoted ('\\' :: c :: body) (unescape c ++ value)

/-- Between the quotes there is a given character or escape, behind characters and escapes. -/
def HasUnit (unit body : List Char) : Prop :=
  ∃ front value rest, Quoted front value ∧ body = front ++ (unit ++ rest)

/-- There is a line feed between the quotes that is not escaped. -/
def BareBreak (body : List Char) : Prop :=
  HasUnit ['\n'] body

theorem hasUnit_cons {unit : List Char} (hquote : c ≠ '"') (hescape : c ≠ '\\') :
    HasUnit unit (c :: body) ↔ unit <+: c :: body ∨ HasUnit unit body := by
  constructor
  · rintro ⟨front, value, rest, hfront, heq⟩
    cases hfront with
    | nil => exact .inl ⟨rest, heq.symm⟩
    | plain _ _ h => exact .inr ⟨_, _, rest, h, (List.cons.inj heq).2⟩
    | escape d h => exact absurd (List.cons.inj heq).1 hescape
  · rintro (⟨rest, heq⟩ | ⟨front, value, rest, hfront, rfl⟩)
    · exact ⟨[], [], rest, .nil, heq.symm⟩
    · exact ⟨c :: front, c :: value, rest, .plain hquote hescape hfront, rfl⟩

theorem hasUnit_escape {unit : List Char} :
    HasUnit unit ('\\' :: c :: body) ↔ unit <+: '\\' :: c :: body ∨ HasUnit unit body := by
  constructor
  · rintro ⟨front, value, rest, hfront, heq⟩
    cases hfront with
    | nil => exact .inl ⟨rest, heq.symm⟩
    | plain _ hescape _ => exact absurd (List.cons.inj heq).1.symm hescape
    | escape d h => exact .inr ⟨_, _, rest, h, (List.cons.inj (List.cons.inj heq).2).2⟩
  · rintro (⟨rest, heq⟩ | ⟨front, value, rest, hfront, rfl⟩)
    · exact ⟨[], [], rest, .nil, heq.symm⟩
    · exact ⟨'\\' :: c :: front, _, rest, .escape c hfront, rfl⟩

theorem not_bareBreak_nil : ¬ BareBreak [] := by
  rintro ⟨front, -, rest, -, heq⟩
  simp at heq

theorem bareBreak_cons (hquote : c ≠ '"') (hescape : c ≠ '\\') :
    BareBreak (c :: body) ↔ c = '\n' ∨ BareBreak body := by
  simp [BareBreak, hasUnit_cons hquote hescape, List.cons_prefix_cons, eq_comm]

theorem bareBreak_escape : BareBreak ('\\' :: c :: body) ↔ BareBreak body := by
  simp [BareBreak, hasUnit_escape, List.cons_prefix_cons]

private theorem readLiteral_cons (hescape : c ≠ '\\') : readLiteral p (c :: rest) =
    if c = '"' then .ok ([], p.after c, rest)
    else if c = '\n' then .error .unterminatedString
    else (readLiteral (p.after c) rest).map fun (value, q, left) => (c :: value, q, left) := by
  rw [readLiteral.eq_def]
  split
  · next heq => cases heq
  · next heq => exact absurd (List.cons.inj heq).1 hescape
  · next heq => exact absurd (List.cons.inj heq).1 hescape
  · next heq =>
    obtain ⟨rfl, rfl⟩ := List.cons.inj heq
    rfl

/-- The literals that are read: those with a closing quote and without a line feed that is not
escaped. -/
theorem readLiteral_eq_ok_iff : readLiteral p cs = .ok (value, q, left) ↔
    ∃ body, Quoted body value ∧ ¬ BareBreak body ∧ cs = body ++ '"' :: left ∧
      q = p.afterAll (body ++ ['"']) := by
  constructor
  · intro h
    fun_induction readLiteral p cs generalizing value with
    | case1 => cases h
    | case2 => cases h
    | case3 p c rest ih =>
      obtain ⟨⟨value', q', left'⟩, hr, heq⟩ := map_eq_ok.1 h
      cases heq
      obtain ⟨body, hbody, hbreak, rfl, rfl⟩ := ih hr
      exact ⟨'\\' :: c :: body, .escape c hbody, mt bareBreak_escape.1 hbreak, rfl, rfl⟩
    | case4 p rest hescape =>
      cases h
      exact ⟨[], .nil, not_bareBreak_nil, rfl, rfl⟩
    | case5 => cases h
    | case6 p c rest hlone hescape hquote hline ih =>
      obtain ⟨⟨value', q', left'⟩, hr, heq⟩ := map_eq_ok.1 h
      cases heq
      obtain ⟨body, hbody, hbreak, rfl, rfl⟩ := ih hr
      have hplain : c ≠ '\\' := by
        rintro rfl
        cases body with
        | nil => exact hescape _ _ rfl rfl
        | cons d body => exact hescape _ _ rfl rfl
      refine ⟨c :: body, .plain hquote hplain hbody, ?_, rfl, rfl⟩
      rw [bareBreak_cons hquote hplain]
      exact not_or.2 ⟨hline, hbreak⟩
  · rintro ⟨body, hbody, hbreak, rfl, rfl⟩
    induction hbody generalizing p with
    | nil => rfl
    | @plain c body value hquote hescape h ih =>
      rw [bareBreak_cons hquote hescape, not_or] at hbreak
      rw [List.cons_append, readLiteral_cons hescape, if_neg hquote, if_neg hbreak.1, ih hbreak.2]
      rfl
    | escape c h ih =>
      rw [bareBreak_escape] at hbreak
      rw [List.cons_append, List.cons_append, readLiteral, ih hbreak]
      rfl

/-- A literal is not read if no closing quote comes before a line feed that is not escaped. -/
theorem exists_readLiteral_error_iff : (∃ cause, readLiteral p cs = .error cause) ↔
    ∀ body value after, Quoted body value → cs = body ++ '"' :: after → BareBreak body := by
  constructor
  · rintro ⟨cause, h⟩ body value after hbody rfl
    by_contra hbreak
    have hok : readLiteral p (body ++ '"' :: after) =
        .ok (value, p.afterAll (body ++ ['"']), after) :=
      readLiteral_eq_ok_iff.2 ⟨body, hbody, hbreak, rfl, rfl⟩
    rw [h] at hok
    cases hok
  · intro hopen
    cases hread : readLiteral p cs with
    | error cause => exact ⟨cause, rfl⟩
    | ok r =>
      obtain ⟨value, q, left⟩ := r
      obtain ⟨body, hbody, hbreak, rfl, -⟩ := readLiteral_eq_ok_iff.1 hread
      exact absurd (hopen body value left hbody rfl) hbreak

theorem cause_of_readLiteral {cause : ParseError.Cause} (h : readLiteral p cs = .error cause) :
    cause = .unterminatedString ∨ cause = .unterminatedEscape := by
  fun_induction readLiteral p cs with
  | case1 | case5 =>
    cases h
    exact .inl rfl
  | case2 =>
    cases h
    exact .inr rfl
  | case3 p c rest ih =>
    cases hr : readLiteral ((p.after '\\').after c) rest with
    | error e =>
      rw [hr] at h
      cases h
      exact ih hr
    | ok r => simp [hr, Except.map] at h
  | case4 => cases h
  | case6 p c rest _ _ _ _ ih =>
    cases hr : readLiteral (p.after c) rest with
    | error e =>
      rw [hr] at h
      cases h
      exact ih hr
    | ok r => simp [hr, Except.map] at h

/-! ## Pieces -/

/-- A piece that is read at the beginning of a text, the token if it is one, and the rest of the
text. -/
inductive Piece : List Char → Option Token → List Char → Prop
  | blank {c : Char} (rest : List Char) (h : Text.isBlank c = true) : Piece [c] none rest
  | comment {text rest : List Char} (h : '\n' ∉ text) (hrest : ∀ c ∈ rest.head?, c = '\n') :
    Piece ('#' :: text) none rest
  | literal {body value : List Char} (rest : List Char) (h : Quoted body value)
    (hbreak : ¬ BareBreak body) :
    Piece ('"' :: (body ++ ['"'])) (some (.str (String.ofList value))) rest
  | mark {c : Char} {token : Token} (rest : List Char) (h : Token.punctuation? c = some token) :
    Piece [c] (some token) rest
  | word {c : Char} {text rest : List Char} (hstart : isWordStart c = true)
    (h : ∀ d ∈ text, isWordChar d = true) (hrest : ∀ d ∈ rest.head?, isWordChar d = false) :
    Piece (c :: text) (some (.word (String.ofList (c :: text)))) rest

/-- Why no piece can be read at the beginning of a text that is not empty. -/
inductive Stuck : List Char → ParseError.Cause → Prop
  /-- A literal has no closing quote, or not before a line feed that is not escaped. -/
  | literal {rest : List Char} {cause : ParseError.Cause}
    (h : ∀ body value after, Quoted body value → rest = body ++ '"' :: after → BareBreak body)
    (hcause : cause = .unterminatedString ∨ cause = .unterminatedEscape) :
    Stuck ('"' :: rest) cause
  | stray {c : Char} (rest : List Char) (h : c ≠ '"') : Stuck (c :: rest) (.unexpectedCharacter c)

theorem Piece.ne_nil (h : Piece piece token? rest) : piece ≠ [] := by
  cases h <;> simp

private theorem takeWhile_append_of_head? {p : Char → Bool} {text : List Char}
    (h : ∀ c ∈ text, p c = true) (hrest : ∀ c ∈ rest.head?, p c = false) :
    (text ++ rest).takeWhile p = text := by
  rw [List.takeWhile_append_of_pos h]
  cases rest with
  | nil => simp
  | cons c rest => simp [hrest c rfl]

private theorem dropWhile_append_of_head? {p : Char → Bool} {text : List Char}
    (h : ∀ c ∈ text, p c = true) (hrest : ∀ c ∈ rest.head?, p c = false) :
    (text ++ rest).dropWhile p = rest := by
  rw [List.dropWhile_append_of_pos h]
  cases rest with
  | nil => rfl
  | cons c rest => simp [hrest c rfl]

private theorem head?_dropWhile_eq_false {p : Char → Bool} (cs : List Char) :
    ∀ c ∈ (cs.dropWhile p).head?, p c = false := by
  intro c hc
  have := List.head?_dropWhile_not p cs
  rw [Option.mem_def.1 hc] at this
  simpa using this

private theorem map_nil_append {ε α : Type} (x : Except ε (List α)) : x.map ([] ++ ·) = x := by
  cases x <;> rfl

/-- A piece is scanned apart from what follows it. -/
theorem scanFrom_piece (file : String) (p : Position) (h : Piece piece token? rest) :
    scanFrom file p (piece ++ rest) = (scanFrom file (p.afterAll piece) rest).map
      ((token?.map fun token => (⟨token, p⟩ : Lexeme)).toList ++ ·) := by
  cases h with
  | blank rest h =>
    rw [List.singleton_append, scanFrom, if_pos h]
    exact (map_nil_append _).symm
  | @comment text rest h hrest =>
    have htext : ∀ c ∈ text, (c != '\n') = true := fun c hc =>
      bne_iff_ne.2 fun heq => h (heq ▸ hc)
    have hhead : ∀ c ∈ rest.head?, (c != '\n') = false := fun c hc => by simp [hrest c hc]
    rw [List.cons_append, scanFrom, if_neg (by decide), if_pos rfl,
      takeWhile_append_of_head? htext hhead, dropWhile_append_of_head? htext hhead]
    exact (map_nil_append _).symm
  | @literal body value rest h hbreak =>
    have hread : readLiteral (p.after '"') (body ++ ['"'] ++ rest) =
        .ok (value, (p.after '"').afterAll (body ++ ['"']), rest) :=
      readLiteral_eq_ok_iff.2 ⟨body, h, hbreak, by simp, rfl⟩
    rw [List.cons_append, scanFrom, if_neg (by decide), if_neg (by decide), if_pos rfl]
    split
    · next heq =>
      rw [hread] at heq
      cases heq
    · next heq =>
      rw [hread] at heq
      cases heq
      rfl
  | @mark c token rest h =>
    have hmarks : ∀ c ∈ [';', ',', '=', '\x7b', '\x7d'],
        (!Text.isBlank c && c != '#' && c != '"') = true := List.all_eq_true.1 (by decide +kernel)
    have hmark := hmarks c (mem_of_punctuation? h)
    simp only [Bool.and_eq_true, Bool.not_eq_true', bne_iff_ne] at hmark
    obtain ⟨⟨hblank, hcomment⟩, hquote⟩ := hmark
    rw [List.singleton_append, scanFrom, if_neg (by simp [hblank]), if_neg hcomment,
      if_neg hquote]
    simp only [h]
    rfl
  | @word c text rest hstart h hrest =>
    have hcomment : c ≠ '#' := by
      rintro rfl
      exact absurd hstart (by decide +kernel)
    have hquote : c ≠ '"' := by
      rintro rfl
      exact absurd hstart (by decide +kernel)
    have hblank := isBlank_of_isWordChar (isWordChar_of_isWordStart hstart)
    rw [List.cons_append, scanFrom, if_neg (by simp [hblank]), if_neg hcomment, if_neg hquote]
    simp only [punctuation?_of_isWordStart hstart, hstart, if_true,
      takeWhile_append_of_head? h hrest, dropWhile_append_of_head? h hrest]
    rfl

/-- A literal that is not read is an error at its opening quote. -/
theorem scanFrom_of_readLiteral {cause : ParseError.Cause}
    (h : readLiteral (p.after '"') rest = .error cause) :
    scanFrom file p ('"' :: rest) = .error ⟨.ofPosition file p, cause⟩ := by
  rw [scanFrom, if_neg (by decide), if_neg (by decide), if_pos rfl]
  split
  · next heq =>
    rw [h] at heq
    cases heq
    rfl
  · next heq =>
    rw [h] at heq
    cases heq

/-- At the beginning of a text that is not empty a piece is read, or the text is in error. -/
theorem exists_piece_or_stuck (file : String) (p : Position) (c : Char) (cs : List Char) :
    (∃ piece token? rest, c :: cs = piece ++ rest ∧ Piece piece token? rest) ∨
      ∃ cause, Stuck (c :: cs) cause ∧
        scanFrom file p (c :: cs) = .error ⟨.ofPosition file p, cause⟩ := by
  by_cases hblank : Text.isBlank c = true
  · exact .inl ⟨[c], none, cs, rfl, .blank cs hblank⟩
  by_cases hcomment : c = '#'
  · subst hcomment
    refine .inl ⟨'#' :: cs.takeWhile (· != '\n'), none, cs.dropWhile (· != '\n'), ?_,
      .comment (fun hmem => ?_) fun c hc => ?_⟩
    · rw [List.cons_append, List.takeWhile_append_dropWhile]
    · simpa using List.all_eq_true.1 List.all_takeWhile _ hmem
    · simpa using head?_dropWhile_eq_false cs c hc
  by_cases hquote : c = '"'
  · subst hquote
    cases hread : readLiteral (p.after '"') cs with
    | ok r =>
      obtain ⟨value, q, left⟩ := r
      obtain ⟨body, hbody, hbreak, rfl, -⟩ := readLiteral_eq_ok_iff.1 hread
      exact .inl ⟨_, _, left, by simp, .literal left hbody hbreak⟩
    | error cause =>
      exact .inr ⟨cause, .literal (exists_readLiteral_error_iff.1 ⟨cause, hread⟩)
        (cause_of_readLiteral hread), scanFrom_of_readLiteral hread⟩
  cases hmark : Token.punctuation? c with
  | some token => exact .inl ⟨[c], some token, cs, rfl, .mark cs hmark⟩
  | none =>
    by_cases hstart : isWordStart c = true
    · refine .inl ⟨c :: cs.takeWhile isWordChar, _, cs.dropWhile isWordChar, ?_,
        .word hstart (List.all_eq_true.1 List.all_takeWhile) (head?_dropWhile_eq_false cs)⟩
      rw [List.cons_append, List.takeWhile_append_dropWhile]
    · refine .inr ⟨.unexpectedCharacter c, .stray cs hquote, ?_⟩
      rw [scanFrom, if_neg hblank, if_neg hcomment, if_neg hquote]
      simp only [hmark, hstart, Bool.false_eq_true, if_false]

/-- A text that is empty or in error at its beginning has no pieces, every other text is a piece
with a shorter text behind it. -/
theorem pieces_induction {motive : List Char → Prop} (nil : motive [])
    (piece : ∀ {piece token? rest}, Piece piece token? rest → motive rest → motive (piece ++ rest))
    (stuck : ∀ c cs, (∀ file p, ∃ cause, Stuck (c :: cs) cause ∧
      scanFrom file p (c :: cs) = .error ⟨.ofPosition file p, cause⟩) → motive (c :: cs))
    (cs : List Char) : motive cs := by
  -- the rest behind a piece is shorter, for a piece is not empty
  induction hlength : cs.length using Nat.strongRecOn generalizing cs with
  | _ n ih =>
    cases cs with
    | nil => exact nil
    | cons c cs =>
      by_cases hpiece : ∃ piece token? rest, c :: cs = piece ++ rest ∧ Piece piece token? rest
      · obtain ⟨first, token?, rest, heq, hfirst⟩ := hpiece
        have hpos := List.length_pos_iff.2 hfirst.ne_nil
        rw [heq, List.length_append] at hlength
        rw [heq]
        exact piece hfirst (ih rest.length (by omega) rest rfl)
      · exact stuck c cs fun file p => (exists_piece_or_stuck file p c cs).resolve_left hpiece

/-! ## Many pieces -/

/-- The pieces that are read first lead from the text `cs` to a rest of it, `before` is what they
take. -/
inductive Reads (cs : List Char) : List Char → List Char → Prop
  | start : Reads cs [] cs
  | next {before piece rest : List Char} {token? : Option Token}
    (h : Reads cs before (piece ++ rest)) (hpiece : Piece piece token? rest) :
    Reads cs (before ++ piece) rest

namespace Reads

/-- What the pieces take and the rest make up the text. -/
theorem eq_append (h : Reads cs before rest) : cs = before ++ rest := by
  induction h with
  | start => rfl
  | next _ _ ih => rw [ih, List.append_assoc]

/-- A piece can be read before the others. -/
theorem cons (hpiece : Piece piece token? rest) (h : Reads rest before left) :
    Reads (piece ++ rest) (piece ++ before) left := by
  induction h with
  | start =>
    rw [List.append_nil]
    exact start.next hpiece
  | next _ hlast ih =>
    rw [← List.append_assoc]
    exact ih.next hlast

end Reads

/-- What pieces lead to is scanned apart from them. -/
theorem scanFrom_of_reads (file : String) (p : Position) (h : Reads cs before rest) :
    ∃ ts, scanFrom file p cs = (scanFrom file (p.afterAll before) rest).map (ts ++ ·) := by
  induction h with
  | start => exact ⟨[], (map_nil_append _).symm⟩
  | @next before piece rest token? _ hpiece ih =>
    obtain ⟨ts, hts⟩ := ih
    refine ⟨ts ++ (token?.map fun token => (⟨token, p.afterAll before⟩ : Lexeme)).toList, ?_⟩
    rw [hts, scanFrom_piece file _ hpiece, Position.afterAll_append]
    cases scanFrom file ((p.afterAll before).afterAll piece) rest with
    | error e => rfl
    | ok more => exact congrArg Except.ok (List.append_assoc ..).symm

/-- Every token of a text is the token of one of its pieces, at the position behind the pieces
before it, or it is the end behind all of them. -/
theorem exists_reads_of_mem {ts : List Lexeme} (h : scanFrom file p cs = .ok ts) {t : Lexeme}
    (ht : t ∈ ts) :
    (∃ before piece rest, Reads cs before (piece ++ rest) ∧ Piece piece (some t.token) rest ∧
      t.position = p.afterAll before) ∨
    Reads cs cs [] ∧ t = ⟨.eof, p.afterAll cs⟩ := by
  induction cs using pieces_induction generalizing p ts with
  | nil =>
    rw [scanFrom] at h
    cases h
    exact .inr ⟨.start, List.mem_singleton.1 ht⟩
  | @piece piece token? rest hpiece ih =>
    rw [scanFrom_piece file p hpiece] at h
    obtain ⟨more, hmore, rfl⟩ := map_eq_ok.1 h
    obtain ht | ht := List.mem_append.1 ht
    · obtain ⟨token, rfl, rfl⟩ := Option.map_eq_some_iff.1 (Option.mem_toList.1 ht)
      exact .inl ⟨[], piece, rest, .start, hpiece, rfl⟩
    · obtain ⟨before, last, left, hreads, hlast, hposition⟩ | ⟨hreads, rfl⟩ := ih hmore ht
      · refine .inl ⟨piece ++ before, last, left, hreads.cons hpiece, hlast, ?_⟩
        rw [hposition, Position.afterAll_append]
      · refine .inr ⟨?_, by rw [Position.afterAll_append]⟩
        exact hreads.cons hpiece
  | stuck c cs hstuck =>
    obtain ⟨cause, -, herror⟩ := hstuck file p
    rw [herror] at h
    cases h

/-- An error is behind the pieces, where no other piece can be read. -/
theorem exists_reads_of_error {e : ParseError} (h : scanFrom file p cs = .error e) :
    ∃ before rest cause, Reads cs before rest ∧ Stuck rest cause ∧
      e = ⟨.ofPosition file (p.afterAll before), cause⟩ := by
  induction cs using pieces_induction generalizing p with
  | nil =>
    rw [scanFrom] at h
    cases h
  | @piece piece token? rest hpiece ih =>
    rw [scanFrom_piece file p hpiece] at h
    cases hrest : scanFrom file (p.afterAll piece) rest with
    | ok more =>
      rw [hrest] at h
      cases h
    | error e' =>
      rw [hrest] at h
      cases h
      obtain ⟨before, left, cause, hreads, hstuck, rfl⟩ := ih hrest
      exact ⟨piece ++ before, left, cause, hreads.cons hpiece, hstuck,
        by rw [Position.afterAll_append]⟩
  | stuck c cs hstuck =>
    obtain ⟨cause, hcause, herror⟩ := hstuck file p
    rw [herror] at h
    cases h
    exact ⟨[], c :: cs, cause, .start, hcause, rfl⟩

/-- No piece can be read where the error is. -/
theorem not_piece_of_error {cause : ParseError.Cause} (hreads : Reads cs before (piece ++ rest))
    (h : scanFrom file p cs = .error ⟨.ofPosition file (p.afterAll before), cause⟩) :
    ¬ Piece piece token? rest := by
  intro hpiece
  -- the piece is read, so an error can only come behind it
  obtain ⟨ts, hts⟩ := scanFrom_of_reads file p (hreads.next hpiece)
  rw [hts, Position.afterAll_append] at h
  cases hrest : scanFrom file ((p.afterAll before).afterAll piece) rest with
  | ok more =>
    rw [hrest] at h
    cases h
  | error e =>
    rw [hrest] at h
    cases h
    obtain ⟨more, left, cause', -, -, heq⟩ := exists_reads_of_error hrest
    rw [← Position.afterAll_append, ParseError.mk.injEq, Origin.ofPosition_inj] at heq
    exact Position.afterAll_ne _ (by simp [hpiece.ne_nil]) heq.1.symm

end Lexer

end Entitle
