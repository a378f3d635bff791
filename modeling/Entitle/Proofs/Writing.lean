import Entitle.Proofs.NormalForms
import Entitle.Proofs.Scanning

/-!
# Tokens that are written

Any tokens can be written as a script: words and marks as they are, strings between quotes with
escapes for quotes, backslashes, line feeds and tabs, and a space between two tokens. What is
written is one line that ends in no blank, so the normal form leaves it as it is, and it is scanned
as these tokens. The one character that a string cannot hold is a carriage return, for which there
is no escape.

## Main definitions

* `Lexer.escape`: a character between quotes.
* `Token.written`, `Token.writtenAll`: the text of a token, and of several tokens.
* `Token.IsWritable`: the tokens that can be written.

## Main statements

* `Lexer.quoted_escape`: a string is read back from its escapes.
* `Token.piece_written`: a token is read back from its text.
* `Lexer.scan_written`: tokens are read back from a script.
-/
namespace Entitle

/-! ## Texts of tokens -/

/-- A character as it stands between quotes. -/
def Lexer.escape (c : Char) : List Char :=
  if c = '"' then ['\\', '"']
  else if c = '\\' then ['\\', '\\']
  else if c = '\n' then ['\\', 'n']
  else if c = '\t' then ['\\', 't']
  else [c]

namespace Token

/-- The text of a token. The end of the script has none. -/
def written : Token → List Char
  | word text => text.toList
  | str text => '"' :: (text.toList.flatMap Lexer.escape ++ ['"'])
  | semi => [';']
  | comma => [',']
  | eq => ['=']
  | lbrace => ['\x7b']
  | rbrace => ['\x7d']
  | eof => []

/-- The text of several tokens, with a space between two of them. -/
def writtenAll (tokens : List Token) : String :=
  String.ofList ([' '].intercalate (tokens.map written))

/-- The tokens that can be written: words as they are scanned, strings without carriage returns, and
marks. -/
def IsWritable : Token → Prop
  | word text => ∃ c cs, text.toList = c :: cs ∧ isWordStart c = true ∧
      ∀ d ∈ cs, isWordChar d = true
  | str text => '\r' ∉ text.toList
  | semi | comma | eq | lbrace | rbrace => True
  | eof => False

end Token

/-! ## Strings -/

namespace Lexer

/-- What is written for the characters of a string stands for them. -/
theorem quoted_escape (value : List Char) : Quoted (value.flatMap escape) value := by
  induction value with
  | nil => exact .nil
  | cons c value ih =>
    rw [List.flatMap_cons, escape]
    split_ifs with hquote hslash hfeed htab
    · subst hquote
      exact ih.escape '"'
    · subst hslash
      exact ih.escape '\\'
    · subst hfeed
      exact ih.escape 'n'
    · subst htab
      exact ih.escape 't'
    · exact ih.plain hquote hslash

/-- A character stands for itself or is escaped. A line feed is escaped. -/
theorem escape_cases (c : Char) :
    escape c = [c] ∧ c ≠ '\n' ∨ ∃ d ∈ ['"', '\\', 'n', 't'], escape c = ['\\', d] := by
  rw [escape]
  split_ifs with hquote hslash hfeed htab
  · exact .inr ⟨'"', by decide, rfl⟩
  · exact .inr ⟨'\\', by decide, rfl⟩
  · exact .inr ⟨'n', by decide, rfl⟩
  · exact .inr ⟨'t', by decide, rfl⟩
  · exact .inl ⟨rfl, hfeed⟩

/-- Between the quotes are no line feeds, and no carriage returns that are not in the string. -/
theorem not_mem_escaped {value : List Char} (h : '\r' ∉ value) :
    ∀ c ∈ value.flatMap escape, c ≠ '\r' ∧ c ≠ '\n' := by
  intro c hc
  obtain ⟨d, hd, hc⟩ := List.mem_flatMap.1 hc
  rcases escape_cases d with ⟨hescape, hfeed⟩ | ⟨e, he, hescape⟩
  · rw [hescape, List.mem_singleton] at hc
    subst hc
    exact ⟨ne_of_mem_of_not_mem hd h, hfeed⟩
  · rw [hescape, List.mem_cons, List.mem_singleton] at hc
    simp only [List.mem_cons, List.not_mem_nil, or_false] at he
    rcases hc with rfl | rfl
    · decide
    · rcases he with rfl | rfl | rfl | rfl <;> decide

theorem BareBreak.mem {body : List Char} (h : BareBreak body) : '\n' ∈ body := by
  obtain ⟨front, -, rest, -, rfl⟩ := h
  simp

end Lexer

/-! ## Tokens -/

namespace Token

variable {t : Token}

/-- A token is read from its text, if nothing follows that could go on with it. -/
theorem piece_written (h : t.IsWritable) {rest : List Char}
    (hrest : ∀ c ∈ rest.head?, isWordChar c = false) :
    Lexer.Piece t.written (some t) rest := by
  cases t with
  | word text =>
    obtain ⟨c, cs, htext, hstart, hcs⟩ := h
    have hword : text = String.ofList (c :: cs) := by rw [← htext, String.ofList_toList]
    rw [written, htext, hword]
    exact .word hstart hcs hrest
  | str text =>
    have hliteral := Lexer.Piece.literal rest (Lexer.quoted_escape text.toList)
      fun hbreak => (Lexer.not_mem_escaped h _ hbreak.mem).2 rfl
    rwa [String.ofList_toList] at hliteral
  | semi | comma | eq | lbrace | rbrace => exact .mark rest rfl
  | eof => cases h

theorem IsWritable.isWordChar {text : String} (h : (word text).IsWritable) {c : Char}
    (hc : c ∈ text.toList) : isWordChar c = true := by
  obtain ⟨d, ds, htext, hstart, hds⟩ := h
  rw [htext] at hc
  rcases List.mem_cons.1 hc with rfl | hc
  · exact isWordChar_of_isWordStart hstart
  · exact hds c hc

/-- A token is written on one line. -/
theorem not_mem_written (h : t.IsWritable) : ∀ c ∈ t.written, c ≠ '\r' ∧ c ≠ '\n' := by
  intro c hc
  cases t with
  | word text =>
    have hblank := isBlank_of_isWordChar (h.isWordChar hc)
    refine ⟨?_, ?_⟩ <;> rintro rfl <;> exact absurd hblank (by decide)
  | str text =>
    rw [written, List.mem_cons, List.mem_append, List.mem_singleton] at hc
    rcases hc with rfl | hc | rfl
    · decide
    · exact Lexer.not_mem_escaped h c hc
    · decide
  | semi | comma | eq | lbrace | rbrace =>
    obtain rfl := List.mem_singleton.1 hc
    decide
  | eof => cases h

/-- The text of a token ends in a character that is no blank. -/
theorem getLast?_written (h : t.IsWritable) :
    ∃ c, t.written.getLast? = some c ∧ Text.isBlank c = false := by
  cases t with
  | word text =>
    obtain ⟨d, ds, htext, -⟩ := id h
    obtain ⟨c, hc⟩ := Option.isSome_iff_exists.1
      (List.getLast?_isSome.2 (by rw [htext]; simp : text.toList ≠ []))
    exact ⟨c, hc, isBlank_of_isWordChar (h.isWordChar (List.mem_of_getLast? hc))⟩
  | str text =>
    refine ⟨'"', ?_, by decide⟩
    rw [written, ← List.cons_append, List.getLast?_concat]
  | semi | comma | eq | lbrace | rbrace => exact ⟨_, rfl, by decide⟩
  | eof => cases h

end Token

/-! ## Lines of tokens -/

private theorem Text.mem_intercalate {c separator : Char} {ls : List (List Char)}
    (h : c ∈ [separator].intercalate ls) : c = separator ∨ ∃ l ∈ ls, c ∈ l := by
  induction ls with
  | nil => cases h
  | cons l ls ih =>
    cases ls with
    | nil =>
      rw [List.intercalate_singleton] at h
      exact .inr ⟨l, List.mem_cons_self, h⟩
    | cons l' ls =>
      rw [List.intercalate_cons_cons, List.mem_append, List.mem_append, List.mem_singleton] at h
      rcases h with (h | h) | h
      · exact .inr ⟨l, List.mem_cons_self, h⟩
      · exact .inl h
      · exact (ih h).imp_right fun ⟨l, hl, hc⟩ => ⟨l, List.mem_cons_of_mem _ hl, hc⟩

private theorem Text.getLast?_intercalate {separator : Char} {P : Char → Prop}
    {ls : List (List Char)} (h : ∀ l ∈ ls, ∃ c, l.getLast? = some c ∧ P c) (hne : ls ≠ []) :
    ∃ c, ([separator].intercalate ls).getLast? = some c ∧ P c := by
  induction ls with
  | nil => exact absurd rfl hne
  | cons l ls ih =>
    cases ls with
    | nil =>
      rw [List.intercalate_singleton]
      exact h l List.mem_cons_self
    | cons l' ls =>
      obtain ⟨c, hc, hP⟩ := ih (fun l hl => h l (List.mem_cons_of_mem _ hl)) (by simp)
      exact ⟨c, by rw [List.intercalate_cons_cons, List.getLast?_append, hc, Option.some_or], hP⟩

namespace Token

variable {tokens : List Token}

/-- What is written only lacks a line feed to be in normal form. -/
theorem normalForm_writtenAll (h : ∀ t ∈ tokens, t.IsWritable) :
    Text.normalForm (writtenAll tokens) = writtenAll tokens ++ "\n" := by
  have hmem : ∀ c ∈ (writtenAll tokens).toList, c ≠ '\r' ∧ c ≠ '\n' := by
    intro c hc
    rw [writtenAll, String.toList_ofList] at hc
    rcases Text.mem_intercalate hc with rfl | ⟨l, hl, hc⟩
    · decide
    · obtain ⟨t, ht, rfl⟩ := List.mem_map.1 hl
      exact not_mem_written (h t ht) c hc
  refine Text.normalForm_line (fun hcr => (hmem _ hcr).1 rfl) (fun hfeed => (hmem _ hfeed).2 rfl)
    fun c hc => ?_
  rw [writtenAll, String.toList_ofList] at hc
  by_cases hnil : tokens = []
  · subst hnil
    cases hc
  · have hlast : ∀ l ∈ tokens.map written, ∃ c, l.getLast? = some c ∧ Text.isBlank c = false :=
      List.forall_mem_map.2 fun t ht => getLast?_written (h t ht)
    obtain ⟨d, hd, hblank⟩ := Text.getLast?_intercalate hlast (by simpa using hnil)
    rw [hd, Option.mem_some_iff] at hc
    exact hc ▸ hblank

end Token

namespace Lexer

variable {file : String} {tokens : List Token}

/-- A token that is written before a blank is scanned, and then what follows the blank. -/
theorem scanFrom_written {t : Token} (ht : t.IsWritable) {c : Char} (hblank : Text.isBlank c = true)
    (p : Position) (rest : List Char) :
    scanFrom file p (t.written ++ c :: rest) =
      (scanFrom file ((p.afterAll t.written).after c) rest).map (⟨t, p⟩ :: ·) := by
  have hpiece : Piece t.written (some t) (c :: rest) :=
    Token.piece_written ht fun d hd => by
      rw [← Option.mem_some_iff.1 hd, isWordChar_of_isBlank hblank]
  rw [scanFrom_piece file p hpiece, scanFrom, if_pos hblank]
  rfl

/-- Tokens with spaces between them are scanned one after the other. -/
theorem scanFrom_intercalate (h : ∀ t ∈ tokens, t.IsWritable) (p : Position) :
    ∃ ts, scanFrom file p ([' '].intercalate (tokens.map Token.written) ++ ['\n']) = .ok ts ∧
      ts.map (·.token) = tokens ++ [.eof] := by
  have hend (p : Position) : scanFrom file p ['\n'] = .ok [⟨.eof, p.after '\n'⟩] := by
    rw [scanFrom, if_pos (by decide), scanFrom]
  induction tokens generalizing p with
  | nil => exact ⟨_, hend p, rfl⟩
  | cons t tokens ih =>
    obtain ⟨ht, htokens⟩ := List.forall_mem_cons.1 h
    cases tokens with
    | nil =>
      refine ⟨[⟨t, p⟩, ⟨.eof, (p.afterAll t.written).after '\n'⟩], ?_, rfl⟩
      rw [List.map_singleton, List.intercalate_singleton, scanFrom_written ht (by decide), scanFrom]
      rfl
    | cons t' tokens =>
      obtain ⟨ts, hts, hmap⟩ := ih htokens ((p.afterAll t.written).after ' ')
      refine ⟨⟨t, p⟩ :: ts, ?_, by rw [List.map_cons, hmap]; rfl⟩
      rw [List.map_cons, List.map_cons, List.intercalate_cons_cons, ← List.map_cons,
        List.append_assoc, List.append_assoc, List.singleton_append,
        scanFrom_written ht (by decide), hts]
      rfl

/-- Tokens can be written as a script and are read back from it, without any others. -/
theorem scan_written (file identity : String) (h : ∀ t ∈ tokens, t.IsWritable) :
    ∃ ts, scan file (Script.ofText identity (Token.writtenAll tokens)).source = .ok ts ∧
      ts.map (·.token) = tokens ++ [.eof] := by
  obtain ⟨ts, hts, hmap⟩ := @scanFrom_intercalate file tokens h .start
  refine ⟨ts, ?_, hmap⟩
  rw [Script.ofText, scan, Token.normalForm_writtenAll h, String.toList_append, Token.writtenAll,
    String.toList_ofList]
  exact hts

end Lexer

/-- A word, a string with everything in it that could be taken for something else, and marks. -/
def Token.riddle : List Token :=
  [.word "_é:½.-", .str "\\\"#\n \t\u2028\\", .lbrace, .str "", .word "n", .semi]

theorem Lexer.scan_written_riddle :
    (∀ t ∈ Token.riddle, t.IsWritable) ∧
      Token.writtenAll Token.riddle =
        "_é:½.- \"\\\\\\\"#\\n \\t\u2028\\\\\" \x7b \"\" n ;" ∧
      ∃ ts, scan "t" (Script.ofText "s" (Token.writtenAll Token.riddle)).source = .ok ts ∧
        ts.map (·.token) = Token.riddle ++ [.eof] := by
  have h : ∀ t ∈ Token.riddle, t.IsWritable := by
    simp only [Token.riddle, List.forall_mem_cons, Token.IsWritable, List.not_mem_nil,
      false_implies, implies_true, and_true, true_and]
    refine ⟨⟨'_', ['é', ':', '½', '.', '-'], by decide +kernel, by decide +kernel, ?_⟩,
      by decide +kernel, by decide, ⟨'n', [], by decide, by decide +kernel, by simp⟩⟩
    exact List.all_eq_true.1 (by decide +kernel)
  exact ⟨h, by decide +kernel, scan_written "t" "s" h⟩

end Entitle
