import Entitle.Proofs.Readers
import Entitle.Proofs.Unfolding

/-!
# Where statements stand

What a script says stands in its tokens, one statement behind the other, and each statement has the
place of its own first word, also a condition that is the second branch of another one.

## Main definitions

* `Statement.Stands`, `Statement.AllStand`: a row of tokens is a statement, or statements, and is
  where they say that they are.
* `Statement.origins`, `Statement.allOrigins`: the origins of statements in the order of the text.

## Main statements

* `Statement.AllStand.origins_sublist`: the origins are places of tokens, in the same order.
* `Grammar.stand_of_statements`: the statements that are read stand in the tokens.
-/
namespace Entitle

open Entitle.Parser (isKeyword lowered)

/-! ## First words -/

private theorem Keyword.ofLowered?_eq_some {l : String} {kw : Keyword} :
    ofLowered? l = some kw ↔ l = kw.text := by
  constructor
  · intro h
    unfold ofLowered? at h
    split at h <;> cases h <;> rfl
  · rintro rfl
    cases kw <;> rfl

theorem Keyword.ofWord?_eq_some {w : String} {kw : Keyword} :
    ofWord? w = some kw ↔ isKeyword kw.text (.word w) = true := by
  simp [ofWord?, ofLowered?_eq_some, isKeyword]

namespace Statement

/-! ## Statements in their tokens -/

mutual

/-- The tokens are the statement, and its first word is where the statement says that it is. -/
inductive Stands (file : String) : Statement → List Lexeme → Prop
  | simple {s : Statement} {kw : Keyword} {p : Phrase} {t : Lexeme} {ts : List Lexeme}
      (hphrase : s.phrase? = some (kw, p)) (ht : isKeyword kw.text t.token = true)
      (hfits : p.Fits (ts.map (·.token))) (hplace : s.origin = .ofPosition file t.position) :
      Stands file s (t :: ts)
  | cond {flag : String} {negated : Bool} {thenBranch elseBranch : List Statement}
      {t opening closing : Lexeme} {first body tail : List Lexeme}
      (ht : isKeyword "if" t.token = true) (htest : (test negated flag).Fits (first.map (·.token)))
      (hopening : opening.token = .lbrace) (hthen : AllStand file thenBranch body)
      (hclosing : closing.token = .rbrace) (helse : OtherwiseStands file elseBranch tail) :
      Stands file (.cond (.ofPosition file t.position) flag negated thenBranch elseBranch)
        (t :: (first ++ opening :: (body ++ closing :: tail)))

/-- The tokens are the statements, one behind the other. -/
inductive AllStand (file : String) : List Statement → List Lexeme → Prop
  | nil : AllStand file [] []
  | cons {s : Statement} {ss : List Statement} {first more : List Lexeme}
      (hfirst : Stands file s first) (hmore : AllStand file ss more) :
      AllStand file (s :: ss) (first ++ more)

/-- The tokens are the second branch of a condition. -/
inductive OtherwiseStands (file : String) : List Statement → List Lexeme → Prop
  | omitted : OtherwiseStands file [] []
  | block {ss : List Statement} {t opening closing : Lexeme} {body : List Lexeme}
      (ht : isKeyword "else" t.token = true) (hopening : opening.token = .lbrace)
      (hbody : AllStand file ss body) (hclosing : closing.token = .rbrace) :
      OtherwiseStands file ss (t :: opening :: (body ++ [closing]))
  | chain {s : Statement} {t : Lexeme} {more : List Lexeme}
      (ht : isKeyword "else" t.token = true) (hcond : s.phrase? = none)
      (hmore : Stands file s more) : OtherwiseStands file [s] (t :: more)

end

mutual

/-- Where statements stand, they are written. -/
theorem Stands.written {file : String} {s : Statement} {ts : List Lexeme} :
    Stands file s ts → Written s (ts.map (·.token))
  | .simple hphrase ht hfits _ => .simple hphrase (.cons ht hfits)
  | .cond ht htest hopening hthen hclosing helse => by
    simp only [List.map_cons, List.map_append, hopening, hclosing]
    exact .cond (.cons ht htest) hthen.written helse.written

theorem AllStand.written {file : String} {ss : List Statement} {ts : List Lexeme} :
    AllStand file ss ts → AllWritten ss (ts.map (·.token))
  | .nil => .nil
  | .cons hfirst hmore => by
    rw [List.map_append]
    exact .cons hfirst.written hmore.written

theorem OtherwiseStands.written {file : String} {ss : List Statement} {ts : List Lexeme} :
    OtherwiseStands file ss ts → ElseWritten ss (ts.map (·.token))
  | .omitted => .omitted
  | .block ht hopening hbody hclosing => by
    simp only [List.map_cons, List.map_append, List.map_nil, hopening, hclosing]
    exact .block ht hbody.written
  | .chain ht hcond hmore => .chain ht hcond hmore.written

end

/-! ## The order of the text -/

mutual

/-- The origins of a statement and of the statements in it, in the order of the text. -/
def origins : Statement → List Origin
  | directive o _ => [o]
  | inclusion o _ => [o]
  | define o _ _ => [o]
  | cond o _ _ thenBranch elseBranch => o :: (allOrigins thenBranch ++ allOrigins elseBranch)

/-- The origins of statements in the order of the text. -/
def allOrigins : List Statement → List Origin
  | [] => []
  | s :: ss => s.origins ++ allOrigins ss

end

theorem origins_of_phrase {s : Statement} {kw : Keyword} {p : Phrase}
    (h : s.phrase? = some (kw, p)) : s.origins = [s.origin] := by
  cases s with
  | cond => cases h
  | _ => rfl

/-- The places of tokens. -/
def places (file : String) (ts : List Lexeme) : List Origin :=
  ts.map fun t => .ofPosition file t.position

@[simp] theorem places_cons (file : String) (t : Lexeme) (ts : List Lexeme) :
    places file (t :: ts) = .ofPosition file t.position :: places file ts := rfl

@[simp] theorem places_append (file : String) (ts us : List Lexeme) :
    places file (ts ++ us) = places file ts ++ places file us :=
  List.map_append

mutual

theorem Stands.origins_sublist {file : String} {s : Statement} {ts : List Lexeme} :
    Stands file s ts → s.origins.Sublist (places file ts)
  | .simple hphrase _ _ hplace => by
    rw [origins_of_phrase hphrase, hplace, places_cons]
    exact List.singleton_sublist.2 List.mem_cons_self
  | .cond _ _ _ hthen _ helse => by
    rw [origins, places_cons, places_append, places_cons, places_append, places_cons]
    refine List.Sublist.cons_cons _ (List.Sublist.trans ?_ (List.sublist_append_right _ _))
    exact (hthen.origins_sublist.append (helse.origins_sublist.cons _)).cons _

/-- The origins of statements are places of their tokens, in the same order. -/
theorem AllStand.origins_sublist {file : String} {ss : List Statement} {ts : List Lexeme} :
    AllStand file ss ts → (allOrigins ss).Sublist (places file ts)
  | .nil => List.Sublist.slnil
  | .cons hfirst hmore => by
    rw [allOrigins, places_append]
    exact hfirst.origins_sublist.append hmore.origins_sublist

theorem OtherwiseStands.origins_sublist {file : String} {ss : List Statement} {ts : List Lexeme} :
    OtherwiseStands file ss ts → (allOrigins ss).Sublist (places file ts)
  | .omitted => List.Sublist.slnil
  | .block _ _ hbody _ => by
    rw [places_cons, places_cons, places_append]
    exact ((hbody.origins_sublist.trans (List.sublist_append_left _ _)).cons _).cons _
  | .chain _ _ hmore => by
    rw [allOrigins, allOrigins, List.append_nil, places_cons]
    exact hmore.origins_sublist.cons _

end

end Statement

/-! ## What is read stands there -/

namespace Grammar

open Entitle.Parser Phrase Statement

variable {cx : ParseContext}

theorem flagTest_eq_ok {ts rest : List Lexeme} {negated : Bool} {flag : String} :
    flagTest.run cx ts = .ok ((negated, flag), rest) ↔
      (negated = false → lowered flag ≠ "not") ∧ Leads (test negated flag) ts rest := by
  simp only [flagTest, run_bind_eq_ok, run_pure_eq_ok, word_eq_ok, Prod.mk.injEq]
  constructor
  · rintro ⟨_, m₁, hnot, _, m₂, hflag, ⟨rfl, rfl⟩, rfl⟩
    rcases optionalKeyword_eq_ok.1 hnot with ⟨rfl, hk⟩ | ⟨rfl, rfl, hlacks⟩
    · exact ⟨by simp, leads_split.2 ⟨m₁, hk, hflag⟩⟩
    · refine ⟨fun _ hflagNot => ?_, hflag⟩
      obtain ⟨t, rfl, ht⟩ := leads_singleton.1 hflag
      have htoken : t.token = .word flag := by simpa [Slot.word] using ht
      simp [Slot.spelled, htoken, isKeyword, hflagNot] at hlacks
  · rintro ⟨hnot, h⟩
    cases negated with
    | true =>
      obtain ⟨m₁, hk, hflag⟩ := leads_split.1 h
      exact ⟨true, m₁, optionalKeyword_eq_ok.2 (.inl ⟨rfl, hk⟩), flag, rest, hflag, ⟨rfl, rfl⟩,
        rfl⟩
    | false =>
      have hlacks : Lacks (.spelled "not") ts := h.lacks fun t ht => by
        have htoken : t = .word flag := by simpa [Slot.word] using ht
        simpa [Slot.spelled, htoken, isKeyword] using hnot rfl
      exact ⟨false, ts, optionalKeyword_eq_ok.2 (.inr ⟨rfl, rfl, hlacks⟩), flag, rest, h,
        ⟨rfl, rfl⟩, rfl⟩

/-- The reader of a keyword gives a statement at the origin that it was given. -/
theorem origin_of_simple_eq_ok {o : Origin} {kw : Keyword} {s : Statement} {ts rest : List Lexeme}
    (h : (simple o kw).run cx ts = .ok (s, rest)) : s.origin = o := by
  cases kw with
  | inclusion =>
    obtain ⟨target, rfl, -⟩ := inclusion_eq_ok.1 h
    rfl
  | define =>
    obtain ⟨flag, value, rfl, -⟩ := definition_eq_ok.1 h
    rfl
  | _ =>
    obtain ⟨d, rfl, -⟩ := run_map_eq_ok.1 h
    rfl

mutual

/-- A statement that is read stands at the front of the tokens. -/
theorem stands_of_readStatement {s : Statement} {ts rest : List Lexeme}
    (h : readStatement cx ts = .ok (s, rest)) :
    ∃ front, ts = front ++ rest ∧ Stands cx.file s front ∧ s.Clear := by
  cases ts with
  | nil =>
    rw [readStatement_nil] at h
    cases h
  | cons t ts =>
    rw [readStatement_cons] at h
    split at h
    · next w hw =>
      split at h
      · next hif =>
        rw [← hw] at hif
        obtain ⟨front, rfl, hstands, hclear, -⟩ := stands_of_readCondition hif h
        exact ⟨t :: front, rfl, hstands, hclear⟩
      · split at h
        · cases h
        · next kw hkw =>
          obtain ⟨hclear, p, hp, hleads⟩ := of_simple_eq_ok h
          obtain ⟨front, rfl, hfits⟩ := leads_iff.1 hleads
          have ht : isKeyword kw.text t.token = true := by
            rw [hw]
            exact Keyword.ofWord?_eq_some.1 hkw
          exact ⟨t :: front, rfl, .simple hp ht hfits (origin_of_simple_eq_ok h), hclear⟩
    · cases h
termination_by 2 * ts.length

private theorem stands_of_readCondition {t : Lexeme} {s : Statement} {ts rest : List Lexeme}
    (ht : isKeyword "if" t.token = true)
    (h : readCondition cx (.ofPosition cx.file t.position) ts = .ok (s, rest)) :
    ∃ front, ts = front ++ rest ∧ Stands cx.file s (t :: front) ∧ s.Clear ∧ s.phrase? = none := by
  rw [readCondition_eq] at h
  obtain ⟨⟨⟨negated, flag⟩, afterTest⟩, htest, h⟩ := bind_eq_ok.1 h
  obtain ⟨⟨thenBranch, afterThen⟩, hthen, h⟩ := bind_eq_ok.1 h
  obtain ⟨⟨elseBranch, afterElse⟩, helse, h⟩ := map_eq_ok.1 h
  cases h
  have htestLength : afterTest.length ≤ ts.length := flagTest.length_le cx ts _ _ htest
  have hthenLength : afterThen.length < afterTest.length := length_of_map_pair hthen
  obtain ⟨hflag, hleads⟩ := flagTest_eq_ok.1 htest
  obtain ⟨first, rfl, hfits⟩ := leads_iff.1 hleads
  obtain ⟨opening, body, closing, rfl, hopening, hclosing, hbody, hclear⟩ :=
    stand_of_readBlock hthen
  obtain ⟨tail, rfl, htail, hclears⟩ := stands_of_readOtherwise helse
  exact ⟨first ++ opening :: (body ++ closing :: tail), by simp,
    .cond ht hfits hopening hbody hclosing htail, ⟨hflag, hclear, hclears⟩, rfl⟩
termination_by 2 * ts.length + 1

private theorem stands_of_readOtherwise {ss : List Statement} {ts rest : List Lexeme}
    (h : readOtherwise cx ts = .ok (ss, rest)) :
    ∃ front, ts = front ++ rest ∧ OtherwiseStands cx.file ss front ∧ AllClear ss := by
  cases ts with
  | nil =>
    rw [readOtherwise_nil] at h
    cases h
    exact ⟨[], rfl, .omitted, trivial⟩
  | cons t ts =>
    by_cases ht : isKeyword "else" t.token = true
    · by_cases hif : ∃ u more, ts = u :: more ∧ isKeyword "if" u.token = true
      · obtain ⟨u, more, rfl, hu⟩ := hif
        rw [readOtherwise_chain ht hu] at h
        obtain ⟨⟨s, left⟩, hs, h⟩ := map_eq_ok.1 h
        cases h
        obtain ⟨front, rfl, hstands, hclear, hcond⟩ := stands_of_readCondition hu hs
        exact ⟨t :: u :: front, rfl, .chain ht hcond hstands, hclear, trivial⟩
      · have hblock : ∀ u ∈ ts.head?, isKeyword "if" u.token = false := by
          intro u hu
          obtain ⟨more, rfl⟩ := List.head?_eq_some_iff.1 hu
          exact Bool.eq_false_iff.2 fun hword => hif ⟨u, more, rfl, hword⟩
        rw [readOtherwise_block ht hblock] at h
        obtain ⟨opening, body, closing, rfl, hopening, hclosing, hbody, hclear⟩ :=
          stand_of_readBlock h
        exact ⟨t :: opening :: (body ++ [closing]), by simp, .block ht hopening hbody hclosing,
          hclear⟩
    · rw [readOtherwise_omitted (by simpa using ht)] at h
      cases h
      exact ⟨[], rfl, .omitted, trivial⟩
termination_by 2 * ts.length

private theorem stand_of_readBlock {ss : List Statement} {ts rest : List Lexeme}
    (h : readBlock cx ts = .ok (ss, rest)) : ∃ opening body closing,
      ts = opening :: (body ++ closing :: rest) ∧ opening.token = .lbrace ∧
        closing.token = .rbrace ∧ AllStand cx.file ss body ∧ AllClear ss := by
  rw [readBlock_eq] at h
  obtain ⟨⟨_, left⟩, hmark, h⟩ := bind_eq_ok.1 h
  obtain ⟨opening, rfl, hopening⟩ := leads_singleton.1 (mark_eq_ok.1 hmark)
  obtain ⟨body, closing, rfl, hclosing, hbody, hclear⟩ := stand_of_readBlockRest h
  exact ⟨opening, body, closing, rfl, by simpa [Slot.mark] using hopening, hclosing, hbody, hclear⟩
termination_by 2 * ts.length

private theorem stand_of_readBlockRest {o : Origin} {ss : List Statement} {ts rest : List Lexeme}
    (h : readBlockRest cx o ts = .ok (ss, rest)) : ∃ body closing,
      ts = body ++ closing :: rest ∧ closing.token = .rbrace ∧ AllStand cx.file ss body ∧
        AllClear ss := by
  cases ts with
  | nil =>
    rw [readBlockRest_nil] at h
    cases h
  | cons t ts =>
    rw [readBlockRest_cons] at h
    split at h
    · next ht =>
      cases h
      exact ⟨[], t, rfl, ht, .nil, trivial⟩
    · split at h
      · cases h
      · obtain ⟨⟨s, left⟩, hs, h⟩ := bind_eq_ok.1 h
        obtain ⟨⟨more, last⟩, hmore, h⟩ := map_eq_ok.1 h
        cases h
        have hleft : left.length < ts.length + 1 := length_of_map_pair hs
        obtain ⟨first, hfirst, hstands, hclear⟩ := stands_of_readStatement hs
        obtain ⟨body, closing, rfl, hclosing, hbody, hclears⟩ := stand_of_readBlockRest hmore
        refine ⟨first ++ body, closing, ?_, hclosing, .cons hstands hbody, hclear, hclears⟩
        rw [hfirst, List.append_assoc]
termination_by 2 * ts.length + 1

end

/-- The statements that are read stand in the tokens up to the end of the script. -/
theorem stand_of_statements {ts : List Lexeme} {ss : List Statement}
    (h : statements cx ts = .ok ss) : ∃ body tail, ts = body ++ tail ∧
      (∀ t ∈ tail.head?, t.token = .eof) ∧ AllStand cx.file ss body ∧ AllClear ss := by
  fun_induction statements cx ts generalizing ss with
  | case1 =>
    cases h
    exact ⟨[], [], rfl, by simp, .nil, trivial⟩
  | case2 t rest ht =>
    cases h
    exact ⟨[], t :: rest, rfl, by simpa using ht, .nil, trivial⟩
  | case3 => cases h
  | case4 => cases h
  | case5 t rest _ _ taken htaken ih =>
    obtain ⟨more, hmore, rfl⟩ := map_eq_ok.1 h
    obtain ⟨first, hfirst, hstands, hclear⟩ :=
      stands_of_readStatement (map_eq_ok.2 ⟨taken, htaken, rfl⟩)
    obtain ⟨body, tail, hbody, htail, hss, hclears⟩ := ih hmore
    refine ⟨first ++ body, tail, ?_, htail, .cons hstands hss, hclear, hclears⟩
    rw [hfirst, hbody, List.append_assoc]

end Grammar

end Entitle
