import Mathlib.Data.List.Forall2
import Entitle.Script.Grammar

/-!
# The written forms of statements

The grammar of scripts, said without a reader. A statement without a block is written as a phrase: a
row of slots, each of which allows some tokens. A keyword allows every spelling of its letters, and
the name of a restriction may be a word or a string; every other slot allows one token. A condition
is written around the statements of its branches, and there is a choice of how the second branch is
written.

## Main definitions

* `Slot`, `Phrase`, `Phrase.Fits`: phrases, and the tokens that fit them.
* `Directive.phrase`, `Statement.phrase?`: the phrase of a statement.
* `Statement.Written`, `Statement.AllWritten`: how statements are written as tokens.
* `Statement.Clear`: no privilege and no flag is taken for a keyword.
* `Statement.unplaced`: a statement without its positions.

## Main statements

* `Phrase.leads_iff`: what it means that tokens begin with a phrase.
* `Statement.Written.exists_keyword`: how a written statement begins.
* `Statement.AllWritten.not_mem`: the end of the script is not among the tokens of statements.
* `Statement.AllWritten.of_unplaced`: positions do not matter for the written form.
-/
namespace Entitle

open Entitle.Parser (isKeyword lowered)

/-! ## Phrases -/

/-- What may stand in the place of one token. -/
abbrev Slot := Token → Bool

namespace Slot

/-- A keyword, in letters of either case. -/
def spelled (k : String) : Slot := isKeyword k

/-- A word as it is. -/
def word (w : String) : Slot := (· == .word w)

/-- A string literal. -/
def str (s : String) : Slot := (· == .str s)

/-- A punctuation mark. -/
def mark (m : Token) : Slot := (· == m)

/-- A name, as a word or as a string. -/
def name (n : String) : Slot := fun t => t == .word n || t == .str n

end Slot

/-- A row of slots. -/
abbrev Phrase := List Slot

namespace Phrase

/-- The tokens fill the slots, one each. -/
def Fits (p : Phrase) (ts : List Token) : Prop :=
  List.Forall₂ (fun slot t => slot t = true) p ts

/-- The tokens begin with the phrase, and `rest` follows it. -/
def Leads : Phrase → List Lexeme → List Lexeme → Prop
  | [], ts, rest => ts = rest
  | slot :: more, ts, rest => ∃ t left, ts = t :: left ∧ slot t.token = true ∧ Leads more left rest

@[simp] theorem leads_nil {ts rest : List Lexeme} : Leads [] ts rest ↔ ts = rest := Iff.rfl

theorem leads_cons {slot : Slot} {more : Phrase} {ts rest : List Lexeme} :
    Leads (slot :: more) ts rest ↔
      ∃ t left, ts = t :: left ∧ slot t.token = true ∧ Leads more left rest := Iff.rfl

@[simp] theorem leads_cons_cons {slot : Slot} {more : Phrase} {t : Lexeme}
    {left rest : List Lexeme} :
    Leads (slot :: more) (t :: left) rest ↔ slot t.token = true ∧ Leads more left rest := by
  simp [leads_cons]

theorem leads_append {p q : Phrase} {ts rest : List Lexeme} :
    Leads (p ++ q) ts rest ↔ ∃ mid, Leads p ts mid ∧ Leads q mid rest := by
  induction p generalizing ts with
  | nil => simp
  | cons slot more ih =>
    simp only [List.cons_append, leads_cons, ih]
    constructor
    · rintro ⟨t, left, rfl, ht, mid, hmore, hq⟩
      exact ⟨mid, ⟨t, left, rfl, ht, hmore⟩, hq⟩
    · rintro ⟨mid, ⟨t, left, rfl, ht, hmore⟩, hq⟩
      exact ⟨t, left, rfl, ht, mid, hmore, hq⟩

/-- Tokens begin with a phrase if their first part fits it. -/
theorem leads_iff {p : Phrase} {ts rest : List Lexeme} :
    Leads p ts rest ↔ ∃ front, ts = front ++ rest ∧ p.Fits (front.map (·.token)) := by
  induction p generalizing ts with
  | nil =>
    constructor
    · intro h
      exact ⟨[], h, .nil⟩
    · rintro ⟨front, rfl, hfits⟩
      cases front with
      | nil => rfl
      | cons t front => cases hfits
  | cons slot more ih =>
    rw [leads_cons]
    constructor
    · rintro ⟨t, left, rfl, ht, hleft⟩
      obtain ⟨front, rfl, hfits⟩ := ih.1 hleft
      exact ⟨t :: front, rfl, .cons ht hfits⟩
    · rintro ⟨front, rfl, hfits⟩
      cases front with
      | nil => cases hfits
      | cons t front =>
        cases hfits with
        | cons ht hfits => exact ⟨t, front ++ rest, rfl, ht, ih.2 ⟨front, rfl, hfits⟩⟩

/-- A phrase is taken slot by slot. -/
theorem leads_split {slot : Slot} {more : Phrase} {ts rest : List Lexeme} :
    Leads (slot :: more) ts rest ↔ ∃ mid, Leads [slot] ts mid ∧ Leads more mid rest :=
  leads_append (p := [slot])

/-- The same for a phrase that goes on, so that it can be used again and again. -/
theorem leads_cons_cons_iff {slot next : Slot} {more : Phrase} {ts rest : List Lexeme} :
    Leads (slot :: next :: more) ts rest ↔
      ∃ mid, Leads [slot] ts mid ∧ Leads (next :: more) mid rest :=
  leads_split

/-- The tokens do not begin with a token for the slot. -/
def Lacks (slot : Slot) (ts : List Lexeme) : Prop :=
  ∀ left, ¬ Leads [slot] ts left

/-- A phrase of a single slot. -/
theorem leads_singleton {slot : Slot} {ts rest : List Lexeme} :
    Leads [slot] ts rest ↔ ∃ t, ts = t :: rest ∧ slot t.token = true := by
  constructor
  · rintro ⟨t, left, rfl, ht, rfl⟩
    exact ⟨t, rfl, ht⟩
  · rintro ⟨t, rfl, ht⟩
    exact ⟨t, rest, rfl, ht, rfl⟩

@[simp] theorem lacks_nil (slot : Slot) : Lacks slot [] := by
  intro left h
  obtain ⟨t, ht, -⟩ := leads_singleton.1 h
  cases ht

@[simp] theorem lacks_cons {slot : Slot} {t : Lexeme} {ts : List Lexeme} :
    Lacks slot (t :: ts) ↔ slot t.token = false := by
  constructor
  · intro h
    by_contra hslot
    exact h ts (leads_singleton.2 ⟨t, rfl, by simpa using hslot⟩)
  · intro h left hleads
    obtain ⟨u, hu, hslot⟩ := leads_singleton.1 hleads
    cases hu
    rw [h] at hslot
    cases hslot

/-- Tokens that begin with a phrase do not begin with a token that its first slot forbids. -/
theorem Leads.lacks {slot other : Slot} {more : Phrase} {ts rest : List Lexeme}
    (h : Leads (slot :: more) ts rest) (hother : ∀ t, slot t = true → other t = false) :
    Lacks other ts := by
  obtain ⟨t, left, rfl, ht, -⟩ := h
  exact lacks_cons.2 (hother _ ht)

theorem Leads.lacks_of_mark {m : Token} {other : Slot} {more : Phrase} {ts rest : List Lexeme}
    (h : Leads (.mark m :: more) ts rest) (hother : other m = false) : Lacks other ts := by
  refine h.lacks fun t ht => ?_
  obtain rfl : t = m := by simpa [Slot.mark] using ht
  exact hother

/-- Phrases of several things with commas between them. -/
def separated {α : Type} (form : α → Phrase) : List α → Phrase
  | [] => []
  | [a] => form a
  | a :: b :: rest => form a ++ Slot.mark .comma :: separated form (b :: rest)

/-- A keyword with a string after it, where there is one. -/
def clause (k : String) : Option String → Phrase
  | none => []
  | some s => [.spelled k, .str s]

/-! ## The end of the script -/

/-- No slot allows the end of the script. -/
def Within (p : Phrase) : Prop := ∀ slot ∈ p, slot .eof = false

@[simp] theorem within_nil : Within [] := by simp [Within]

@[simp] theorem within_cons {slot : Slot} {p : Phrase} :
    Within (slot :: p) ↔ slot .eof = false ∧ p.Within := List.forall_mem_cons

@[simp] theorem within_append {p q : Phrase} : Within (p ++ q) ↔ p.Within ∧ q.Within :=
  List.forall_mem_append

@[simp] theorem within_separated {α : Type} {form : α → Phrase} (hform : ∀ a, (form a).Within) :
    ∀ as, (separated form as).Within
  | [] => within_nil
  | [a] => hform a
  | a :: b :: rest =>
    within_append.2 ⟨hform a, within_cons.2 ⟨rfl, within_separated hform (b :: rest)⟩⟩

@[simp] theorem within_clause (k : String) (o : Option String) : (clause k o).Within := by
  cases o with
  | none => exact within_nil
  | some s => exact within_cons.2 ⟨rfl, within_cons.2 ⟨rfl, within_nil⟩⟩

theorem Within.not_mem {p : Phrase} {ts : List Token} (hp : p.Within) (h : p.Fits ts) :
    .eof ∉ ts := by
  induction h with
  | nil => simp
  | cons ht hfits ih =>
    obtain ⟨hslot, hp⟩ := within_cons.1 hp
    refine List.not_mem_cons_of_ne_of_not_mem ?_ (ih hp)
    rintro rfl
    rw [hslot] at ht
    cases ht

end Phrase

namespace Slot

@[simp] theorem spelled_eof (k : String) : spelled k .eof = false := rfl

@[simp] theorem word_eof (w : String) : word w .eof = false := rfl

@[simp] theorem str_eof (s : String) : str s .eof = false := rfl

@[simp] theorem name_eof (n : String) : name n .eof = false := rfl

end Slot

/-! ## Statements without a block -/

namespace Phrase

open Slot

/-- Privileges on a path for a principal. -/
def grant (ps : List String) (path principal : String) : Phrase :=
  separated (fun p => [word p]) ps ++
    [spelled "on", str path, spelled "for", str principal]

@[simp] theorem within_grant (ps : List String) (path principal : String) :
    (grant ps path principal).Within := by
  simp [grant]

/-- One restriction. -/
def restriction (r : String × String) : Phrase :=
  [name r.1, mark .eq, str r.2]

/-- The restrictions of a permission, where there are any. -/
def restrictions : List (String × String) → Phrase
  | [] => []
  | r :: rs => spelled "with" :: separated restriction (r :: rs)

@[simp] theorem within_restrictions (rs : List (String × String)) : (restrictions rs).Within := by
  cases rs with
  | nil => exact within_nil
  | cons r rs =>
    exact within_cons.2 ⟨rfl, within_separated (fun r => by simp [restriction, mark]) (r :: rs)⟩

/-- A principal, and its kind where one is given. -/
def presence (id : String) : Option PrincipalKind → Phrase
  | none => [str id]
  | some kind => [str id, spelled "as", spelled kind.name]

/-- What a verification says after its first word. -/
def check : Check → Phrase
  | .present id kind => spelled "exists" :: presence id kind
  | .absent id => [spelled "not", spelled "exists", str id]
  | .permission effect ps path principal => spelled effect.name :: grant ps path principal

@[simp] theorem within_check (c : Check) : (check c).Within := by
  cases c with
  | present id kind => cases kind <;> simp [check, presence]
  | absent id => simp [check]
  | permission => simp [check]

end Phrase

/-- The first word of a statement. -/
def Keyword.text : Keyword → String
  | create => "create"
  | add => "add"
  | remove => "remove"
  | allow => "allow"
  | deny => "deny"
  | set => "set"
  | copy => "copy"
  | move => "move"
  | delete => "delete"
  | purge => "purge"
  | inclusion => "include"
  | define => "define"
  | check => "check"

theorem Keyword.text_ne_if (kw : Keyword) : kw.text ≠ "if" := by
  cases kw <;> decide

private theorem Keyword.text_ne_else (kw : Keyword) : kw.text ≠ "else" := by
  cases kw <;> decide

/-- The first word of a permission. -/
def Effect.keyword : Effect → Keyword
  | allow => .allow
  | deny => .deny

section

open Slot Phrase

/-- The first word of a directive, and the phrase after it. -/
def Directive.phrase : Directive → Keyword × Phrase
  | create kind id path =>
    (.create, [spelled kind.name, str id] ++ clause "at" path ++ [mark .semi])
  | addMember member group => (.add, [str member, spelled "to", str group, mark .semi])
  | removeMember member group => (.remove, [str member, spelled "from", str group, mark .semi])
  | permission effect ps path principal rs =>
    (effect.keyword, Phrase.grant ps path principal ++ Phrase.restrictions rs ++ [mark .semi])
  | setProperty path key value =>
    (.set, [str key, mark .eq, str value, spelled "on", str path, mark .semi])
  | copy source target => (.copy, [str source, spelled "to", str target, mark .semi])
  | move source target => (.move, [str source, spelled "to", str target, mark .semi])
  | delete path => (.delete, [str path, mark .semi])
  | purge path principal => (.purge, [str path] ++ clause "for" principal ++ [mark .semi])
  | check c => (.check, Phrase.check c ++ [mark .semi])

theorem Directive.within_phrase (d : Directive) : d.phrase.2.Within := by
  cases d <;> simp [phrase, mark]

theorem ne_eof_of_isKeyword {k : String} {t : Token} (h : isKeyword k t = true) : .eof ≠ t := by
  rintro rfl
  cases h

namespace Statement

/-- The first word of a statement without a block, and the phrase after it. -/
def phrase? : Statement → Option (Keyword × Phrase)
  | directive _ d => some d.phrase
  | inclusion _ target => some (.inclusion, [str target, mark .semi])
  | define _ flag value =>
    some (.define, [word flag, mark .eq, spelled (if value then "true" else "false"), mark .semi])
  | cond .. => none

/-! ## All statements -/

/-- The test of a flag. -/
def test (negated : Bool) (flag : String) : Phrase :=
  (if negated then [spelled "not"] else []) ++ [word flag]

mutual

/-- How a statement may be written as tokens. -/
inductive Written : Statement → List Token → Prop
  | simple {s : Statement} {kw : Keyword} {p : Phrase} {ts : List Token}
      (hphrase : s.phrase? = some (kw, p)) (hfits : Phrase.Fits (spelled kw.text :: p) ts) :
      Written s ts
  | cond {o : Origin} {flag : String} {negated : Bool} {thenBranch elseBranch : List Statement}
      {first body tail : List Token}
      (htest : Phrase.Fits (spelled "if" :: test negated flag) first)
      (hthen : AllWritten thenBranch body) (helse : ElseWritten elseBranch tail) :
      Written (.cond o flag negated thenBranch elseBranch)
        (first ++ .lbrace :: (body ++ .rbrace :: tail))

/-- How statements may be written one after the other. -/
inductive AllWritten : List Statement → List Token → Prop
  | nil : AllWritten [] []
  | cons {s : Statement} {ss : List Statement} {first more : List Token}
      (hfirst : Written s first) (hmore : AllWritten ss more) :
      AllWritten (s :: ss) (first ++ more)

/-- How the second branch of a condition may be written: not at all if it is empty, as a block, or
without braces if it is a single condition. -/
inductive ElseWritten : List Statement → List Token → Prop
  | omitted : ElseWritten [] []
  | block {ss : List Statement} {t : Token} {body : List Token} (ht : isKeyword "else" t = true)
      (hbody : AllWritten ss body) : ElseWritten ss (t :: .lbrace :: (body ++ [.rbrace]))
  | chain {s : Statement} {t : Token} {more : List Token} (ht : isKeyword "else" t = true)
      (hcond : s.phrase? = none) (hmore : Written s more) : ElseWritten [s] (t :: more)

end

end Statement

end

/-! ## Keywords in other places -/

/-- The privileges are there, and none of them is the keyword that ends their list. -/
def Privileges.Clear (ps : List String) : Prop :=
  ps ≠ [] ∧ ∀ p ∈ ps, lowered p ≠ "on"

/-- The privileges of a directive are not taken for a keyword. -/
def Directive.Clear : Directive → Prop
  | permission _ ps _ _ _ => Privileges.Clear ps
  | check (.permission _ ps _ _) => Privileges.Clear ps
  | _ => True

namespace Statement

mutual

/-- No privilege and no flag of the statement is taken for a keyword. -/
def Clear : Statement → Prop
  | directive _ d => d.Clear
  | inclusion .. => True
  | define .. => True
  | cond _ flag negated thenBranch elseBranch =>
    (negated = false → lowered flag ≠ "not") ∧ AllClear thenBranch ∧ AllClear elseBranch

/-- No privilege and no flag of the statements is taken for a keyword. -/
def AllClear : List Statement → Prop
  | [] => True
  | s :: rest => s.Clear ∧ AllClear rest

end

/-! ## Positions -/

mutual

/-- The statement with the same origin everywhere. -/
def unplaced : Statement → Statement
  | directive _ d => .directive default d
  | inclusion _ target => .inclusion default target
  | define _ flag value => .define default flag value
  | cond _ flag negated thenBranch elseBranch =>
    .cond default flag negated (allUnplaced thenBranch) (allUnplaced elseBranch)

/-- The statements with the same origin everywhere. -/
def allUnplaced : List Statement → List Statement
  | [] => []
  | s :: rest => s.unplaced :: allUnplaced rest

end

/-! ## The first token -/

/-- A written statement begins with a keyword that no second branch begins with. -/
theorem Written.exists_keyword {s : Statement} {ts : List Token} (h : Written s ts) :
    ∃ k t more, ts = t :: more ∧ isKeyword k t = true ∧ k ≠ "else" := by
  cases h with
  | @simple _ kw _ _ hphrase hfits =>
    cases hfits with
    | cons ht hfits => exact ⟨_, _, _, rfl, ht, kw.text_ne_else⟩
  | cond htest hthen helse =>
    cases htest with
    | cons ht htest => exact ⟨"if", _, _, rfl, ht, by decide⟩

/-- A written condition begins with its keyword. -/
theorem Written.exists_if {s : Statement} {ts : List Token} (h : Written s ts)
    (hcond : s.phrase? = none) : ∃ t more, ts = t :: more ∧ isKeyword "if" t = true := by
  cases h with
  | simple hphrase =>
    rw [hcond] at hphrase
    cases hphrase
  | cond htest hthen helse =>
    cases htest with
    | cons ht htest => exact ⟨_, _, rfl, ht⟩

/-! ## The end of the script -/

theorem within_test (negated : Bool) (flag : String) : (test negated flag).Within := by
  cases negated <;> simp [test]

theorem within_phrase? {s : Statement} {kw : Keyword} {p : Phrase} (h : s.phrase? = some (kw, p)) :
    p.Within := by
  cases s with
  | cond => cases h
  | inclusion | define =>
    cases h
    simp [Slot.mark]
  | directive o d =>
    have hd : d.phrase = (kw, p) := Option.some.inj h
    simpa [hd] using d.within_phrase

mutual

/-- No written statement goes beyond the end of the script. -/
theorem Written.not_mem {s : Statement} {ts : List Token} : Written s ts → .eof ∉ ts
  | .simple hphrase hfits => (Phrase.within_cons.2 ⟨rfl, within_phrase? hphrase⟩).not_mem hfits
  | .cond htest hthen helse => by
    have htest := (Phrase.within_cons.2 ⟨rfl, within_test _ _⟩).not_mem htest
    simp [htest, hthen.not_mem, helse.not_mem]

theorem AllWritten.not_mem {ss : List Statement} {ts : List Token} : AllWritten ss ts → .eof ∉ ts
  | .nil => by simp
  | .cons hfirst hmore => by simp [hfirst.not_mem, hmore.not_mem]

theorem ElseWritten.not_mem {ss : List Statement} {ts : List Token} : ElseWritten ss ts → .eof ∉ ts
  | .omitted => by simp
  | .block ht hbody => by
    simp [ne_eof_of_isKeyword ht, hbody.not_mem]
  | .chain ht hcond hmore => by
    simp [ne_eof_of_isKeyword ht, hmore.not_mem]

end

/-! ## Positions do not matter -/

private theorem phrase?_unplaced (s : Statement) : s.unplaced.phrase? = s.phrase? := by
  cases s <;> rfl

private theorem phrase?_eq_of_unplaced {s s' : Statement} (h : s'.unplaced = s.unplaced) :
    s'.phrase? = s.phrase? := by
  rw [← phrase?_unplaced s', h, phrase?_unplaced]

mutual

private theorem clear_unplaced : ∀ s : Statement, s.unplaced.Clear ↔ s.Clear
  | directive .. => Iff.rfl
  | inclusion .. => Iff.rfl
  | define .. => Iff.rfl
  | cond _ _ _ thenBranch elseBranch => by
    simp only [unplaced, Clear, allClear_unplaced thenBranch, allClear_unplaced elseBranch]

theorem allClear_unplaced : ∀ ss : List Statement, AllClear (allUnplaced ss) ↔ AllClear ss
  | [] => Iff.rfl
  | s :: ss => by
    simp only [allUnplaced, AllClear, clear_unplaced s, allClear_unplaced ss]

end

mutual

theorem Written.of_unplaced {s s' : Statement} {ts : List Token} :
    Written s ts → s'.unplaced = s.unplaced → Written s' ts
  | .simple hphrase hfits, h => .simple (phrase?_eq_of_unplaced h ▸ hphrase) hfits
  | .cond htest hthen helse, h => by
    cases s' with
    | cond =>
      simp only [unplaced, Statement.cond.injEq, true_and] at h
      obtain ⟨rfl, rfl, hthen', helse'⟩ := h
      exact .cond htest (hthen.of_unplaced hthen') (helse.of_unplaced helse')
    | _ => simp [unplaced] at h

theorem AllWritten.of_unplaced {ss ss' : List Statement} {ts : List Token} :
    AllWritten ss ts → allUnplaced ss' = allUnplaced ss → AllWritten ss' ts
  | .nil, h => by
    cases ss' with
    | nil => exact .nil
    | cons => simp [allUnplaced] at h
  | .cons hfirst hmore, h => by
    cases ss' with
    | nil => simp [allUnplaced] at h
    | cons =>
      simp only [allUnplaced, List.cons.injEq] at h
      exact .cons (hfirst.of_unplaced h.1) (hmore.of_unplaced h.2)

theorem ElseWritten.of_unplaced {ss ss' : List Statement} {ts : List Token} :
    ElseWritten ss ts → allUnplaced ss' = allUnplaced ss → ElseWritten ss' ts
  | .omitted, h => by
    cases ss' with
    | nil => exact .omitted
    | cons => simp [allUnplaced] at h
  | .block ht hbody, h => .block ht (hbody.of_unplaced h)
  | .chain ht hcond hmore, h => by
    cases ss' with
    | nil => simp [allUnplaced] at h
    | cons s' ss' =>
      cases ss' with
      | cons => simp [allUnplaced] at h
      | nil =>
        simp only [allUnplaced, List.cons.injEq, and_true] at h
        exact .chain ht (phrase?_eq_of_unplaced h ▸ hcond) (hmore.of_unplaced h)

end

end Statement

end Entitle
