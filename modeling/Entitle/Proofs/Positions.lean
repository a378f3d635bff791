import Mathlib.Data.List.Induction
import Entitle.Proofs.Scanning

/-!
# Positions are exact

A position says what stands before it: how many line feeds, and how many characters behind the last
of them. The reader of tokens only moves on one character at a time, through blanks, comments,
escapes and words alike, so it always has the position of the character that it comes to. A token
has the position of its first character, an error that of the character where no token can begin,
and a statement that of its first word.

## Main definitions

* `Position.counted`: the position of the character behind a text.
* `Position.Before`, `Origin.Before`: the order of lines, and of columns within them.

## Main statements

* `Position.afterAll_start`: the position that is kept is the one that is counted.
* `Lexer.pairwise_before_of_scanFrom`: the positions of tokens increase.
* `Grammar.positions_exact`: where tokens, errors and statements are.
-/
namespace Entitle

/-! ## The order of positions -/

namespace Position

/-- The position of the character behind a text: its line is one more than the line feeds of the
text, and its column one more than the characters behind the last line feed. -/
def counted (before : List Char) : Position :=
  ⟨1 + before.count '\n', 1 + (before.reverse.takeWhile (· != '\n')).length⟩

private theorem counted_append_singleton (before : List Char) (c : Char) :
    counted (before ++ [c]) = (counted before).after c := by
  rw [after, counted, List.count_append, List.reverse_append, List.reverse_singleton,
    List.singleton_append, List.takeWhile_cons]
  by_cases hc : c = '\n'
  · subst hc
    rfl
  · have hcount : [c].count '\n' = 0 := List.count_eq_zero.2 (by simpa using Ne.symm hc)
    rw [if_neg hc, if_pos (bne_iff_ne.2 hc), hcount]
    rfl

/-- Whoever moves on character by character knows what can be counted. -/
theorem afterAll_start (before : List Char) : start.afterAll before = counted before := by
  induction before using List.reverseRecOn with
  | nil => rfl
  | append_singleton before c ih =>
    rw [afterAll_append, ih, counted_append_singleton]
    rfl

private theorem line_counted_le (before : List Char) : (counted before).line ≤ 1 + before.length :=
  Nat.add_le_add_left List.count_le_length 1

private theorem column_counted_le (before : List Char) :
    (counted before).column ≤ 1 + before.length := by
  have hle := (List.takeWhile_sublist (l := before.reverse) (· != '\n')).length_le
  rw [List.length_reverse] at hle
  exact Nat.add_le_add_left hle 1

/-- On an earlier line, or further to the left on the same one. -/
def Before (p q : Position) : Prop :=
  p.line < q.line ∨ p.line = q.line ∧ p.column < q.column

private theorem before_afterAll (p : Position) {cs : List Char} (h : cs ≠ []) :
    p.Before (p.afterAll cs) := by
  have hpos := List.length_pos_iff.2 h
  rcases p.lt_afterAll cs with hlt | ⟨hline, hcolumn⟩
  · exact .inl hlt
  · exact .inr ⟨hline.symm, by omega⟩

end Position

/-- The places are in the same script, one before the other. -/
def Origin.Before (o o' : Origin) : Prop :=
  o.file = o'.file ∧ Position.Before ⟨o.line, o.column⟩ ⟨o'.line, o'.column⟩

/-! ## Tokens -/

namespace Lexer

open Grammar (map_eq_ok)

variable {file : String} {p : Position} {cs piece rest : List Char} {ts : List Lexeme}

private theorem Piece.ne_eof {token : Token} (h : Piece piece (some token) rest) :
    token ≠ .eof := by
  generalize htoken : some token = token? at h
  rintro rfl
  cases h with
  | mark rest h =>
    cases htoken
    rw [Token.punctuation?] at h
    split_ifs at h <;> cases h
  | _ => cases htoken

/-- The tokens of a text end with the end of the script, which is behind the text. -/
theorem exists_front_of_scanFrom (h : scanFrom file p cs = .ok ts) :
    ∃ front, ts = front ++ [⟨.eof, p.afterAll cs⟩] ∧ ∀ t ∈ front, t.token ≠ .eof := by
  induction cs using pieces_induction generalizing p ts with
  | nil =>
    rw [scanFrom] at h
    cases h
    exact ⟨[], rfl, by simp⟩
  | @piece piece token? rest hpiece ih =>
    rw [scanFrom_piece file p hpiece] at h
    obtain ⟨more, hmore, rfl⟩ := map_eq_ok.1 h
    obtain ⟨front, rfl, hfront⟩ := ih hmore
    refine ⟨_, by rw [Position.afterAll_append, List.append_assoc], ?_⟩
    refine List.forall_mem_append.2 ⟨fun t ht => ?_, hfront⟩
    obtain ⟨token, rfl, rfl⟩ := Option.map_eq_some_iff.1 (Option.mem_toList.1 ht)
    exact hpiece.ne_eof
  | stuck c cs hstuck =>
    obtain ⟨cause, -, herror⟩ := hstuck file p
    rw [herror] at h
    cases h

private theorem exists_afterAll_of_mem (h : scanFrom file p cs = .ok ts) {t : Lexeme}
    (ht : t ∈ ts) : ∃ before, t.position = p.afterAll before := by
  obtain ⟨before, -, -, -, -, hposition⟩ | ⟨-, rfl⟩ := exists_reads_of_mem h ht
  · exact ⟨before, hposition⟩
  · exact ⟨cs, rfl⟩

/-- The positions of tokens increase, for a token takes characters. -/
theorem pairwise_before_of_scanFrom (h : scanFrom file p cs = .ok ts) :
    ts.Pairwise (·.position.Before ·.position) := by
  induction cs using pieces_induction generalizing p ts with
  | nil =>
    rw [scanFrom] at h
    cases h
    exact List.pairwise_singleton ..
  | @piece piece token? rest hpiece ih =>
    rw [scanFrom_piece file p hpiece] at h
    obtain ⟨more, hmore, rfl⟩ := map_eq_ok.1 h
    cases token? with
    | none => exact ih hmore
    | some token =>
      refine List.pairwise_cons.2 ⟨fun t ht => ?_, ih hmore⟩
      obtain ⟨before, hposition⟩ := exists_afterAll_of_mem hmore ht
      rw [hposition, ← Position.afterAll_append]
      exact p.before_afterAll (by simp [hpiece.ne_nil])
  | stuck c cs hstuck =>
    obtain ⟨cause, -, herror⟩ := hstuck file p
    rw [herror] at h
    cases h

end Lexer

/-! ## Statements -/

namespace Grammar

open Statement

variable {file text : String}

/-- The statements of a text stand in all of its tokens but the end of the script. -/
theorem stand_of_parse {ss : List Statement} (h : parse file text = .ok ss) :
    ∃ body, Lexer.scan file text = .ok (body ++ [⟨.eof, Position.start.afterAll text.toList⟩]) ∧
      AllStand file ss body := by
  cases hscan : Lexer.scan file text with
  | error e =>
    rw [parse, hscan] at h
    cases h
  | ok ts =>
    rw [parse, hscan] at h
    obtain ⟨front, rfl, hfront⟩ := Lexer.exists_front_of_scanFrom hscan
    obtain ⟨body, tail, heq, htail, hstand, -⟩ := stand_of_statements h
    suffices hbody : front = body from ⟨body, by rw [hbody], hstand⟩
    have hends : ∀ t ∈ body, t.token ≠ .eof := fun t ht heof =>
      hstand.written.not_mem (heof ▸ List.mem_map_of_mem ht)
    -- both stop where the first end of the script is
    rcases List.append_eq_append_iff.1 heq with ⟨mid, rfl, hmid⟩ | ⟨mid, rfl, hmid⟩
    · cases mid with
      | nil => exact (List.append_nil _).symm
      | cons t mid =>
        obtain ⟨rfl, -⟩ := List.cons.inj hmid
        exact absurd rfl (hends _ (List.mem_append_right _ List.mem_cons_self))
    · cases mid with
      | nil => exact List.append_nil _
      | cons t mid =>
        subst hmid
        exact absurd (htail t rfl) (hfront t (List.mem_append_right _ List.mem_cons_self))

/-- The places of statements increase in the order of the text. -/
theorem pairwise_before_of_stand {ss : List Statement} {body : List Lexeme}
    (hstand : AllStand file ss body) (h : body.Pairwise (·.position.Before ·.position)) :
    (allOrigins ss).Pairwise Origin.Before :=
  (List.pairwise_map.2 (h.imp fun hbefore => ⟨rfl, hbefore⟩)).sublist hstand.origins_sublist

/-- Positions are exact. In a text that is not too long, all of them can be kept in 32 bits. A token
is at the position of its first character, and the end of the script at that of the end of the
text; an error is where no piece of the text can begin, at the character or at the quote that it is
about; and a statement, also one within others, is where its first word is. Tokens and statements
are in the order of the text. -/
theorem positions_exact (file text : String) :
    (text.length < UInt32.size - 1 → ∀ before, before <+: text.toList →
      (Position.counted before).line < UInt32.size ∧
        (Position.counted before).column < UInt32.size) ∧
    (∀ ts, Lexer.scan file text = .ok ts →
      (∃ front, ts = front ++ [⟨.eof, .counted text.toList⟩] ∧
        ∀ t ∈ front, ∃ before piece rest, Lexer.Reads text.toList before (piece ++ rest) ∧
          Lexer.Piece piece (some t.token) rest ∧ t.position = .counted before) ∧
      ts.Pairwise (·.position.Before ·.position)) ∧
    (∀ e, Lexer.scan file text = .error e →
      ∃ before c rest, Lexer.Reads text.toList before (c :: rest) ∧
        e.origin = .ofPosition file (.counted before) ∧
        (∀ piece token? left, c :: rest = piece ++ left → ¬ Lexer.Piece piece token? left) ∧
        (c = '"' ∧ (e.cause = .unterminatedString ∨ e.cause = .unterminatedEscape) ∨
          c ≠ '"' ∧ e.cause = .unexpectedCharacter c)) ∧
    ∀ ss, parse file text = .ok ss →
      ∃ body, Lexer.scan file text = .ok (body ++ [⟨.eof, .counted text.toList⟩]) ∧
        AllStand file ss body ∧ (allOrigins ss).Pairwise Origin.Before := by
  simp only [← Position.afterAll_start]
  refine ⟨fun hlength before hbefore => ?_, fun ts hscan => ⟨?_, ?_⟩, fun e hscan => ?_,
    fun ss hparse => ?_⟩
  · have hle : before.length ≤ text.length := hbefore.length_le
    rw [Position.afterAll_start]
    have hline := Position.line_counted_le before
    have hcolumn := Position.column_counted_le before
    omega
  · obtain ⟨front, rfl, hfront⟩ := Lexer.exists_front_of_scanFrom hscan
    refine ⟨front, rfl, fun t ht => ?_⟩
    refine (Lexer.exists_reads_of_mem hscan (List.mem_append_left _ ht)).resolve_right ?_
    rintro ⟨-, rfl⟩
    exact hfront _ ht rfl
  · exact Lexer.pairwise_before_of_scanFrom hscan
  · obtain ⟨before, rest, cause, hreads, hstuck, rfl⟩ := Lexer.exists_reads_of_error hscan
    have hpiece : ∀ piece token? left, rest = piece ++ left → ¬ Lexer.Piece piece token? left := by
      rintro piece token? left rfl
      exact Lexer.not_piece_of_error hreads hscan
    cases hstuck with
    | literal hopen hcause => exact ⟨before, _, _, hreads, rfl, hpiece, .inl ⟨rfl, hcause⟩⟩
    | stray rest hquote => exact ⟨before, _, rest, hreads, rfl, hpiece, .inr ⟨hquote, rfl⟩⟩
  · obtain ⟨body, hscan, hstand⟩ := stand_of_parse hparse
    have hordered := Lexer.pairwise_before_of_scanFrom hscan
    exact ⟨body, hscan, hstand,
      pairwise_before_of_stand hstand (List.pairwise_append.1 hordered).1⟩

/-- A condition whose second branch is a condition, with a statement in each of them. -/
def chainText : String :=
  "if a \x7b\n  delete \"/x\";\n\x7d else if b \x7b\n  delete \"/y\";\n\x7d\n"

/-- The second condition is where its own first word is, behind the word that makes it a branch. -/
theorem positions_exact_chainText :
    (∀ before, before <+: chainText.toList →
      (Position.counted before).line < UInt32.size ∧
        (Position.counted before).column < UInt32.size) ∧
    (∃ ts, Lexer.scan "t" chainText = .ok ts ∧ ts.Pairwise (·.position.Before ·.position)) ∧
    (∃ ss body, parse "t" chainText = .ok ss ∧
      allOrigins ss = [⟨"t", 1, 1⟩, ⟨"t", 2, 3⟩, ⟨"t", 3, 8⟩, ⟨"t", 4, 3⟩] ∧
      AllStand "t" ss body ∧ (allOrigins ss).Pairwise Origin.Before) ∧
    ∃ before c rest, Lexer.Reads "delete \"/x".toList before (c :: rest) ∧
      Origin.mk "t" 1 8 = .ofPosition "t" (.counted before) := by
  obtain ⟨hfits, hscan, -, hparse⟩ := positions_exact "t" chainText
  have horigins : (parse "t" chainText).toOption.map allOrigins =
      some [⟨"t", 1, 1⟩, ⟨"t", 2, 3⟩, ⟨"t", 3, 8⟩, ⟨"t", 4, 3⟩] := by
    decide +kernel
  obtain ⟨ss, hss, horigins⟩ := Option.map_eq_some_iff.1 horigins
  have hss : parse "t" chainText = .ok ss := by
    cases h : parse "t" chainText <;> simp_all [Except.toOption]
  obtain ⟨body, hbody, hstand, hordered⟩ := hparse ss hss
  have herror : Lexer.scan "t" "delete \"/x" = .error ⟨⟨"t", 1, 8⟩, .unterminatedString⟩ := by
    decide +kernel
  obtain ⟨before, c, rest, hreads, horigin, -, -⟩ :=
    (positions_exact "t" "delete \"/x").2.2.1 _ herror
  exact ⟨hfits (by decide +kernel), ⟨_, hbody, (hscan _ hbody).2⟩,
    ⟨ss, body, hss, horigins, hstand, hordered⟩, before, c, rest, hreads, horigin⟩

end Grammar

end Entitle
