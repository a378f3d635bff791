import Entitle.Proofs.Cursors
import Entitle.Proofs.Parsing

/-!
# The cursor stays with the tokens

A reader with a cursor goes through the tokens as the reader of lists does. What it has before it is
the list up to the first end of the script, and what stands behind that end is never looked at: no
reader takes an end, so the cursor does not come past it, and in front of it there is always a next
token. Of two calls, one within the other, at least one takes a token first, so the calls are hardly
deeper than twice the number of tokens.

## Main definitions

* `Walk.Sees`: what a reader of lists is given, and what the cursor has before it.
* `Walk.Follows`: a walk does what is read from a list.
* `Walk.Agrees`: a walk does this for a reader, wherever it begins.
* `Walk.throughEnd`: the tokens up to the first end of the script.

## Main statements

* `Walk.Agrees.bind`: walks that agree with readers can be put one after the other.
* `Walk.agrees_afterWord`, `Walk.follows_statement`: the grammar.
* `Walk.parse_eq`: the cursor reads the scripts that are read from lists.
* `Walk.parse_within`: no token is missed or read twice, and none is read behind the end.
-/
namespace Entitle.Walk

variable {α β : Type} {cx : ParseContext} {s : Stream} {pos k n : Nat}
  {ts rest taken : List Lexeme} {t : Lexeme}

/-! ## The tokens before the cursor -/

/-- The reader of lists is given `ts` where the cursor of a walk is at `pos`. Up to the next end of
the script they have the same tokens before them, and they do not have to agree on what is behind
it: the list may go on in another way, or be at its end where the end of the script is implied. -/
inductive Sees (cx : ParseContext) (s : Stream) (pos : Nat) : List Lexeme → Prop
  | intro {front behind tail : List Lexeme} {e : Lexeme} (hfile : s.file = cx.file)
    (hdrop : s.tokens.drop pos = front ++ e :: behind) (hfront : ∀ t ∈ front, t.token ≠ .eof)
    (he : e.token = .eof) (htail : cx.head tail = e) : Sees cx s pos (front ++ tail)

theorem Sees.file_eq (h : Sees cx s pos ts) : s.file = cx.file := by
  cases h
  assumption

/-- There is a next token, the same on both sides. -/
theorem Sees.getElem? (h : Sees cx s pos ts) : s.tokens[pos]? = some (cx.head ts) := by
  obtain ⟨-, hdrop, -, -, htail⟩ := h
  rename_i front _ _ _
  rw [← List.head?_drop, hdrop]
  cases front with
  | nil => rw [List.nil_append, List.nil_append, htail, List.head?_cons]
  | cons t front => rfl

theorem Sees.pos_lt (h : Sees cx s pos ts) : pos < s.tokens.length :=
  (List.getElem?_eq_some_iff.1 h.getElem?).1

/-- A token that is not the end of the script can be gone past, for it is not the last one. -/
theorem Sees.next (h : Sees cx s pos (t :: ts)) (ht : t.token ≠ .eof) :
    pos + 1 < s.tokens.length ∧ Sees cx s (pos + 1) ts := by
  generalize hts : t :: ts = us at h
  obtain ⟨hfile, hdrop, hfront, he, htail⟩ := h
  rename_i front behind tail e
  cases front with
  | nil =>
    rw [List.nil_append] at hts
    rw [← hts] at htail
    have hte : t = e := htail
    exact absurd (hte ▸ he) ht
  | cons u front =>
    obtain ⟨rfl, rfl⟩ := List.cons.inj hts
    have hdrop' : s.tokens.drop (pos + 1) = front ++ e :: behind := by
      rw [← List.tail_drop, hdrop]
      rfl
    have hsees : Sees cx s (pos + 1) (front ++ tail) :=
      .intro hfile hdrop' (List.forall_mem_cons.1 hfront).2 he htail
    exact ⟨hsees.pos_lt, hsees⟩

theorem Sees.skip (h : Sees cx s pos (taken ++ rest)) (htaken : ∀ t ∈ taken, t.token ≠ .eof) :
    Sees cx s (pos + taken.length) rest := by
  induction taken generalizing pos with
  | nil => exact h
  | cons t taken ih =>
    obtain ⟨ht, htaken⟩ := List.forall_mem_cons.1 htaken
    rw [List.length_cons, Nat.add_comm taken.length, ← Nat.add_assoc]
    exact ih (h.next ht).2 htaken

/-! ## One step -/

theorem bind_of_ok {w : Walk α} {f : α → Walk β} {a : α} {p : Nat}
    (h : w s pos = some (.ok (a, p))) : (w >>= f) s pos = f a s p := by
  show Option.bind (w s pos) _ = _
  rw [h]
  rfl

theorem bind_of_error {w : Walk α} {f : α → Walk β} {e : Halt}
    (h : w s pos = some (.error e)) : (w >>= f) s pos = some (.error e) := by
  show Option.bind (w s pos) _ = _
  rw [h]
  rfl

private theorem lastPlace_eq (h : pos < s.tokens.length) :
    lastPlace s pos = some (.ok (s.tokens.length - 1, pos)) := by
  have hne : s.tokens.length ≠ 0 := by omega
  show (if s.tokens.length = 0 then (throw .outOfRange : Walk Nat)
    else pure (s.tokens.length - 1)) s pos = _
  rw [if_neg hne]
  rfl

private theorem tokenAt_eq {i : Nat} (h : s.tokens[i]? = some t) :
    tokenAt i s pos = some (.ok (t, pos)) := by
  show Option.elim s.tokens[i]? (throw .outOfRange : Walk Lexeme) pure s pos = _
  rw [h]
  rfl

/-- The token at the cursor is there. -/
theorem current_eq (h : Sees cx s pos ts) : current s pos = some (.ok (cx.head ts, pos)) := by
  have hmin : min pos (s.tokens.length - 1) = pos := by
    have := h.pos_lt
    omega
  show (lastPlace >>= fun last => tokenAt (min pos last)) s pos = _
  rw [bind_of_ok (lastPlace_eq h.pos_lt), hmin, tokenAt_eq h.getElem?]

/-- The cursor moves on, for there is a token behind one that is not the end of the script. -/
theorem advance_eq (h : Sees cx s pos (t :: ts)) (ht : t.token ≠ .eof) :
    advance s pos = some (.ok ((), pos + 1)) := by
  have hlt : pos < s.tokens.length - 1 := by
    have := (h.next ht).1
    omega
  rw [advance, bind_of_ok (lastPlace_eq h.pos_lt)]
  show (if pos < s.tokens.length - 1 then (modify (· + 1) : Walk PUnit) else pure ()) s pos = _
  rw [if_pos hlt]
  rfl

private theorem here_eq (h : Sees cx s pos ts) : here s pos = some (.ok (cx.origin ts, pos)) := by
  show (current >>= fun t => (pure (.ofPosition s.file t.position) : Walk Origin)) s pos = _
  rw [bind_of_ok (current_eq h), h.file_eq]
  rfl

private theorem refuse_eq (h : Sees cx s pos ts) (cause : Token → ParseError.Cause) :
    (refuse cause : Walk α) s pos = some (.error (.refused (cx.errorAt ts cause))) := by
  rw [refuse, bind_of_ok (here_eq h), bind_of_ok (current_eq h)]
  rfl

/-! ## Walks and readers -/

/-- What is read from a list is what the walk does: it stops with the same error, or with the same
value, moved on by the tokens that were taken. There is no end of the script among these. -/
def Follows (w : Walk α) (s : Stream) (pos : Nat) (ts : List Lexeme) :
    Except ParseError (α × List Lexeme) → Prop
  | .error e => w s pos = some (.error (.refused e))
  | .ok (a, rest) => ∃ taken, ts = taken ++ rest ∧ (∀ t ∈ taken, t.token ≠ .eof) ∧
      w s pos = some (.ok (a, pos + taken.length))

theorem Follows.pure (a : α) : Follows (pure a) s pos ts (.ok (a, ts)) :=
  ⟨[], rfl, by simp, rfl⟩

theorem Follows.refuse (h : Sees cx s pos ts) (cause : Token → ParseError.Cause) :
    Follows (refuse cause : Walk α) s pos ts (.error (cx.errorAt ts cause)) :=
  refuse_eq h cause

/-- What takes nothing does not change what follows. -/
theorem Follows.of_ok {w : Walk β} {b : β} {f : β → Walk α}
    {r : Except ParseError (α × List Lexeme)} (hw : w s pos = some (.ok (b, pos)))
    (hf : Follows (f b) s pos ts r) : Follows (w >>= f) s pos ts r := by
  cases r with
  | error e => exact (bind_of_ok hw).trans hf
  | ok r =>
    obtain ⟨taken, hts, htaken, hrun⟩ := hf
    exact ⟨taken, hts, htaken, (bind_of_ok hw).trans hrun⟩

/-- To look at the next token takes nothing. -/
theorem Follows.look {f : Lexeme → Walk α} {r : Except ParseError (α × List Lexeme)}
    (h : Sees cx s pos ts) (hf : Follows (f (cx.head ts)) s pos ts r) :
    Follows (current >>= f) s pos ts r :=
  hf.of_ok (current_eq h)

theorem Follows.look_cons {f : Lexeme → Walk α} {r : Except ParseError (α × List Lexeme)}
    (h : Sees cx s pos (t :: ts)) (hf : Follows (f t) s pos (t :: ts) r) :
    Follows (current >>= f) s pos (t :: ts) r :=
  hf.look h

theorem Follows.locate {f : Origin → Walk α} {r : Except ParseError (α × List Lexeme)}
    (h : Sees cx s pos ts) (hf : Follows (f (cx.origin ts)) s pos ts r) :
    Follows (here >>= f) s pos ts r :=
  hf.of_ok (here_eq h)

/-- To move on takes the next token. -/
theorem Follows.step {f : Unit → Walk α} {r : Except ParseError (α × List Lexeme)}
    (h : Sees cx s pos (t :: ts)) (ht : t.token ≠ .eof)
    (hf : Follows (f ()) s (pos + 1) ts r) : Follows (advance >>= f) s pos (t :: ts) r := by
  cases r with
  | error e => exact (bind_of_ok (advance_eq h ht)).trans hf
  | ok r =>
    obtain ⟨taken, rfl, htaken, hrun⟩ := hf
    refine ⟨t :: taken, rfl, List.forall_mem_cons.2 ⟨ht, htaken⟩, ?_⟩
    rw [bind_of_ok (advance_eq h ht), hrun, List.length_cons, Nat.add_assoc, Nat.add_comm 1]

/-- A walk goes on where the one before it stopped. -/
theorem Follows.bind {w : Walk α} {f : α → Walk β} {r : Except ParseError (α × List Lexeme)}
    {g : α × List Lexeme → Except ParseError (β × List Lexeme)} (h : Sees cx s pos ts)
    (hw : Follows w s pos ts r)
    (hf : ∀ a p rest, r = .ok (a, rest) → Sees cx s p rest → Follows (f a) s p rest (g (a, rest))) :
    Follows (w >>= f) s pos ts (r.bind g) := by
  cases r with
  | error e => exact bind_of_error hw
  | ok x =>
    obtain ⟨a, rest⟩ := x
    obtain ⟨taken, rfl, htaken, hrun⟩ := hw
    have hnext := hf a _ rest rfl (h.skip htaken)
    show Follows (w >>= f) s pos (taken ++ rest) (g (a, rest))
    cases hg : g (a, rest) with
    | error e =>
      rw [hg] at hnext
      exact (bind_of_ok hrun).trans hnext
    | ok y =>
      rw [hg] at hnext
      obtain ⟨more, rfl, hmore, hrun'⟩ := hnext
      refine ⟨taken ++ more, (List.append_assoc ..).symm, List.forall_mem_append.2 ⟨htaken, hmore⟩,
        ?_⟩
      rw [bind_of_ok hrun, hrun', List.length_append, Nat.add_assoc]

/-- The walk does what the reader does, on any tokens that are not too many. -/
structure Agrees (k : Nat) (w : Walk α) (p : Parser α) : Prop where
  follows : ∀ {cx s pos ts}, ts.length ≤ k → Sees cx s pos ts → Follows w s pos ts (p.run cx ts)

namespace Agrees

variable {w : Walk α} {p : Parser α}

theorem pure (a : α) : Agrees k (Pure.pure a) (Pure.pure a) :=
  ⟨fun _ _ => .pure a⟩

/-- Walks are put one after the other, for a reader leaves no more tokens than it was given. -/
theorem bind {f : α → Walk β} {g : α → Parser β} (hw : Agrees k w p)
    (hf : ∀ a, Agrees k (f a) (g a)) : Agrees k (w >>= f) (p >>= g) := by
  refine ⟨fun {cx s pos ts} hts h => ?_⟩
  have hbind := Follows.bind (f := f) (g := fun x => (g x.1).run cx x.2) h (hw.follows hts h)
    fun a _ rest hrun hrest =>
      (hf a).follows (Nat.le_trans (p.length_le cx ts a rest hrun) hts) hrest
  rw [Parser.run_bind]
  cases hp : p.run cx ts with
  | error e =>
    rw [hp] at hbind
    exact hbind
  | ok x =>
    rw [hp] at hbind
    exact hbind

theorem map (f : α → β) (h : Agrees k w p) : Agrees k (f <$> w) (f <$> p) :=
  h.bind fun a => pure (f a)

end Agrees

/-! ## One token -/

/-- A wanted token is no end of the script. -/
theorem agrees_take {want : Token → Option α} (hwant : want .eof = none)
    (cause : Token → ParseError.Cause) : Agrees k (take want cause) (Parser.take want cause) := by
  refine ⟨fun {cx s pos ts} _ h => ?_⟩
  cases ts with
  | nil =>
    refine .look h ?_
    have hhead : want (cx.head []).token = none := hwant
    rw [hhead]
    exact .refuse h cause
  | cons t ts =>
    refine .look_cons h ?_
    dsimp only [Parser.take]
    cases hw : want t.token with
    | none => exact .refuse h cause
    | some a =>
      have ht : t.token ≠ .eof := by
        intro heof
        rw [heof, hwant] at hw
        cases hw
      exact .step h ht (.pure a)

theorem agrees_keyword (word : String) : Agrees k (keyword word) (Parser.keyword word) :=
  agrees_take rfl _

theorem agrees_mark {m : Token} (hm : m ≠ .eof) : Agrees k (mark m) (Parser.mark m) :=
  agrees_take (if_neg hm.symm) _

theorem agrees_finish : Agrees k finish Parser.finish :=
  agrees_take rfl _

theorem agrees_word : Agrees k word Parser.word :=
  agrees_take rfl _

theorem agrees_quoted (what : String) : Agrees k (quoted what) (Parser.quoted what) :=
  agrees_take rfl _

theorem agrees_either (k₁ : String) (a₁ : α) (k₂ : String) (a₂ : α)
    (cause : Token → ParseError.Cause) :
    Agrees k (either k₁ a₁ k₂ a₂ cause) (Parser.either k₁ a₁ k₂ a₂ cause) :=
  agrees_take rfl _

theorem agrees_optionalKeyword (word : String) :
    Agrees k (optionalKeyword word) (Parser.optionalKeyword word) := by
  refine ⟨fun {cx s pos ts} _ h => ?_⟩
  cases ts with
  | nil => exact .look h (.pure false)
  | cons t ts =>
    refine .look_cons h ?_
    dsimp only [Parser.optionalKeyword]
    by_cases hword : Parser.isKeyword word t.token = true
    · rw [if_pos hword, if_pos hword]
      exact .step h (ne_eof_of_isKeyword hword).symm (.pure true)
    · rw [if_neg hword, if_neg hword]
      exact .pure false

/-! ## Lists -/

theorem Follows.map {w : Walk α} {r : Except ParseError (α × List Lexeme)} (f : α → β)
    (h : Sees cx s pos ts) (hw : Follows w s pos ts r) :
    Follows (w >>= fun a => Pure.pure (f a)) s pos ts (r.map fun x => (f x.1, x.2)) := by
  have hbind := Follows.bind (g := fun x => .ok (f x.1, x.2)) h hw
    fun a _ rest _ _ => Follows.pure (f a)
  cases r <;> exact hbind

/-- The reader of a list goes on behind a comma. -/
def ReadsSeparated (item : Parser α) (list : Parser (List α)) : Prop :=
  ∀ cx ts, list.run cx ts = (item.run cx ts).bind fun x =>
    match x.2 with
    | [] => .ok ([x.1], [])
    | u :: more =>
      if u.token = .comma then (list.run cx more).map fun y => (x.1 :: y.1, y.2)
      else .ok ([x.1], u :: more)

/-- A list is read as its members are. Each takes a comma with it, so it is no deeper than long. -/
theorem agrees_separated {w : Walk α} {item : Parser α} {list : Parser (List α)}
    (walks : Nat → Walk (List α)) (hwalks : ∀ n, walks (n + 1) = separated w (walks n))
    (hitem : ∀ k, Agrees k w item) (hlist : ReadsSeparated item list) :
    ∀ {n k}, k < n → Agrees k (walks n) list
  | n + 1, k, hk => by
    refine ⟨fun {cx s pos ts} hts h => ?_⟩
    rw [hwalks, separated, hlist]
    refine .bind h ((hitem k).follows hts h) fun a p rest hrest hsees => ?_
    have hle := item.length_le cx ts a rest hrest
    cases rest with
    | nil => exact .look hsees (.pure [a])
    | cons u more =>
      refine .look_cons hsees ?_
      by_cases hu : u.token = .comma
      · have heof : u.token ≠ .eof := by
          rw [hu]
          decide
        simp only [hu, if_true]
        rw [List.length_cons] at hle
        have hmore : more.length < n := by omega
        exact .step hsees heof (.map (a :: ·) (hsees.next heof).2
          ((agrees_separated walks hwalks hitem hlist hmore).follows (Nat.le_refl _)
            (hsees.next heof).2))
      · simp only [hu, if_false]
        exact .pure [a]

private theorem readsSeparated_privileges :
    ReadsSeparated (Parser.take Parser.privilege? .expectedPrivilege) Parser.privileges := by
  intro cx ts
  show Parser.readPrivileges cx ts = _
  cases ts with
  | nil => rfl
  | cons t ts =>
    cases hp : Parser.privilege? t.token with
    | none => cases ts <;> simp [Parser.readPrivileges, Parser.take, hp, Except.bind]
    | some p =>
      cases ts with
      | nil => simp [Parser.readPrivileges, Parser.take, hp, Except.bind]
      | cons u more => simp [Parser.readPrivileges, Parser.take, hp, Except.bind, Parser.privileges]

private theorem readsSeparated_restrictions :
    ReadsSeparated Parser.restriction Parser.restrictions := by
  intro cx ts
  show Parser.readRestrictions cx ts = _
  rw [Parser.readRestrictions]
  split
  · next e he => rw [he]; rfl
  · next r u rest hr =>
    conv => rhs; rw [hr]
    rfl
  · next r hr => rw [hr]; rfl

theorem agrees_privileges (hk : k < n) : Agrees k (rules n).privileges Parser.privileges :=
  agrees_separated (fun n => (rules n).privileges) (fun _ => rfl) (fun _ => agrees_take rfl _)
    readsSeparated_privileges hk

theorem agrees_restriction : Agrees k restriction Parser.restriction :=
  .bind (agrees_take rfl _) fun _ =>
    .bind (agrees_mark (by decide)) fun _ => .bind (agrees_quoted _) fun _ => .pure _

theorem agrees_restrictions (hk : k < n) : Agrees k (rules n).restrictions Parser.restrictions :=
  agrees_separated (fun n => (rules n).restrictions) (fun _ => rfl) (fun _ => agrees_restriction)
    readsSeparated_restrictions hk

theorem agrees_grantTarget (hk : k < n) : Agrees k (grantTarget (rules n)) Parser.grantTarget :=
  .bind (agrees_privileges hk) fun _ =>
    .bind (agrees_keyword _) fun _ => .bind (agrees_quoted _) fun _ =>
      .bind (agrees_keyword _) fun _ => .bind (agrees_quoted _) fun _ => .pure _

/-! ## Statements without a block -/

/-- A string behind a keyword, where there is one. -/
theorem agrees_clause (word what : String) {f : Option String → Walk β}
    {g : Option String → Parser β} (hf : ∀ o, Agrees k (f o) (g o)) :
    Agrees k (do
        let there ← optionalKeyword word
        let o ← if there then some <$> quoted what else Pure.pure none
        f o)
      (do
        let there ← Parser.optionalKeyword word
        let o ← if there then some <$> Parser.quoted what else Pure.pure none
        g o) :=
  .bind (agrees_optionalKeyword word) fun there => by
    cases there with
    | false => exact .bind (.pure none) hf
    | true => exact .bind (.map some (agrees_quoted what)) hf

theorem agrees_ended (a : α) : Agrees k (do finish; Pure.pure a) (do Parser.finish; Pure.pure a) :=
  .bind agrees_finish fun _ => .pure a

theorem agrees_creation : Agrees k creation Grammar.creation :=
  .bind (agrees_either ..) fun _ => .bind (agrees_quoted _) fun _ =>
    agrees_clause _ _ fun _ => agrees_ended _

theorem agrees_membership (preposition : String) (make : String → String → Directive) :
    Agrees k (membership preposition make) (Grammar.membership preposition make) :=
  .bind (agrees_quoted _) fun _ => .bind (agrees_keyword _) fun _ =>
    .bind (agrees_quoted _) fun _ => agrees_ended _

theorem agrees_permission (hk : k < n) (effect : Effect) :
    Agrees k (permission (rules n) effect) (Grammar.permission effect) :=
  .bind (agrees_grantTarget hk) fun _ => .bind (agrees_optionalKeyword _) fun restricted =>
    match restricted with
    | true => .bind (agrees_restrictions hk) fun _ => agrees_ended _
    | false => .bind (.pure []) fun _ => agrees_ended _

theorem agrees_propertySetting : Agrees k propertySetting Grammar.propertySetting :=
  .bind (agrees_quoted _) fun _ => .bind (agrees_mark (by decide)) fun _ =>
    .bind (agrees_quoted _) fun _ => .bind (agrees_keyword _) fun _ =>
      .bind (agrees_quoted _) fun _ => agrees_ended _

theorem agrees_transfer (make : String → String → Directive) :
    Agrees k (transfer make) (Grammar.transfer make) :=
  .bind (agrees_quoted _) fun _ => .bind (agrees_keyword _) fun _ =>
    .bind (agrees_quoted _) fun _ => agrees_ended _

theorem agrees_deletion : Agrees k deletion Grammar.deletion :=
  .bind (agrees_quoted _) fun _ => agrees_ended _

theorem agrees_purging : Agrees k purging Grammar.purging :=
  .bind (agrees_quoted _) fun _ => agrees_clause _ _ fun _ => agrees_ended _

theorem agrees_presence : Agrees k presence Grammar.presence :=
  .bind (agrees_quoted _) fun _ => .bind (agrees_optionalKeyword _) fun typed =>
    match typed with
    | true => .bind (.map some (agrees_either ..)) fun _ => .pure _
    | false => .bind (.pure none) fun _ => .pure _

theorem agrees_verification (hk : k < n) :
    Agrees k (verification (rules n)) Grammar.verification :=
  .bind (agrees_take rfl _) fun what =>
    match what with
    | .exists => .bind agrees_presence fun _ => agrees_ended _
    | .not =>
      .bind (agrees_keyword _) fun _ => .bind (agrees_quoted _) fun _ =>
        .bind (.pure _) fun _ => agrees_ended _
    | .permission _ =>
      .bind (agrees_grantTarget hk) fun _ => .bind (.pure _) fun _ => agrees_ended _

theorem agrees_inclusion (origin : Origin) :
    Agrees k (inclusion origin) (Grammar.inclusion origin) :=
  .bind (agrees_quoted _) fun _ => agrees_ended _

theorem agrees_definition (origin : Origin) :
    Agrees k (definition origin) (Grammar.definition origin) :=
  .bind agrees_word fun _ => .bind (agrees_mark (by decide)) fun _ =>
    .bind (agrees_either ..) fun _ => agrees_ended _

/-- Behind its first word, a statement without a block is read as from a list. -/
theorem agrees_afterWord (hk : k < n) (origin : Origin) (kw : Keyword) :
    Agrees k (afterWord (rules n) origin kw) (Grammar.simple origin kw) := by
  cases kw with
  | create => exact .map _ agrees_creation
  | add | remove => exact .map _ (agrees_membership ..)
  | allow | deny => exact .map _ (agrees_permission hk _)
  | set => exact .map _ agrees_propertySetting
  | copy | move => exact .map _ (agrees_transfer _)
  | delete => exact .map _ agrees_deletion
  | purge => exact .map _ agrees_purging
  | inclusion => exact agrees_inclusion origin
  | define => exact agrees_definition origin
  | check => exact .map _ (agrees_verification hk)

theorem agrees_flagTest : Agrees k flagTest Grammar.flagTest :=
  .bind (agrees_optionalKeyword _) fun _ => .bind agrees_word fun _ => .pure _

/-! ## Statements with blocks -/

open Grammar

/- The recursion is on the depth of the calls. A rule that takes a token may call two others one
after the other, so twice the number of tokens is deep enough, with one more step for the rules that
look for the end of a block or go into one. -/
mutual

/-- A statement is read as from a list. -/
theorem follows_statement {n : Nat} {cx : ParseContext} {pos : Nat} {ts : List Lexeme}
    (hn : 2 * ts.length < n) (h : Sees cx s pos ts) :
    Follows (rules n).statement s pos ts (readStatement cx ts) := by
  obtain ⟨n, rfl⟩ := Nat.exists_eq_succ_of_ne_zero (Nat.ne_zero_of_lt hn)
  refine .locate h ?_
  cases ts with
  | nil =>
    rw [readStatement_nil]
    exact .look h (.refuse h _)
  | cons t ts =>
    rw [List.length_cons] at hn
    rw [readStatement_cons]
    refine .look_cons h ?_
    cases htoken : t.token with
    | word w =>
      have ht : t.token ≠ .eof := by
        rw [htoken]
        nofun
      dsimp only
      by_cases hif : Parser.isKeyword "if" (.word w) = true
      · rw [if_pos hif, if_pos hif]
        exact follows_condition (by omega) h ht
      · rw [if_neg hif, if_neg hif]
        cases hkw : Keyword.ofWord? w with
        | none => exact .refuse h _
        | some kw =>
          have hk : ts.length < n := by omega
          exact .step h ht ((agrees_afterWord hk _ kw).follows (Nat.le_refl _) (h.next ht).2)
    | _ => exact .refuse h _
termination_by n

/-- A condition is read as from a list, which it is given behind the first word. -/
theorem follows_condition {n : Nat} {cx : ParseContext} {pos : Nat} {o : Origin} {t : Lexeme}
    {ts : List Lexeme} (hn : 2 * ts.length + 1 < n) (h : Sees cx s pos (t :: ts))
    (ht : t.token ≠ .eof) :
    Follows ((rules n).condition o) s pos (t :: ts) (readCondition cx o ts) := by
  obtain ⟨n, rfl⟩ := Nat.exists_eq_succ_of_ne_zero (Nat.ne_zero_of_lt hn)
  rw [readCondition_eq]
  refine .step h ht
    (.bind (h.next ht).2 (agrees_flagTest.follows (Nat.le_refl _) (h.next ht).2) ?_)
  rintro ⟨negated, flag⟩ p afterTest hrun hsees
  have htest : afterTest.length ≤ ts.length := Grammar.flagTest.length_le cx ts _ _ hrun
  refine .bind hsees (follows_block (by omega) hsees) ?_
  intro thenBranch p' afterThen hblock hsees'
  have hthen : afterThen.length < afterTest.length := length_of_map_pair hblock
  exact .map _ hsees' (follows_otherwise (by omega) hsees')
termination_by n

/-- The second branch of a condition is read as from a list. -/
theorem follows_otherwise {n : Nat} {cx : ParseContext} {pos : Nat} {ts : List Lexeme}
    (hn : 2 * ts.length < n) (h : Sees cx s pos ts) :
    Follows (rules n).otherwise s pos ts (readOtherwise cx ts) := by
  obtain ⟨n, rfl⟩ := Nat.exists_eq_succ_of_ne_zero (Nat.ne_zero_of_lt hn)
  cases ts with
  | nil =>
    rw [readOtherwise_nil]
    exact .look h (.pure [])
  | cons t ts =>
    rw [List.length_cons] at hn
    refine .look_cons h ?_
    by_cases ht : Parser.isKeyword "else" t.token = true
    · rw [if_pos ht]
      have heof : t.token ≠ .eof := (ne_eof_of_isKeyword ht).symm
      have hnext := (h.next heof).2
      refine .step h heof ?_
      cases ts with
      | nil =>
        rw [readOtherwise_block ht (by simp)]
        exact .look hnext (follows_block (by omega) hnext)
      | cons u ts =>
        rw [List.length_cons] at hn
        refine .look_cons hnext ?_
        by_cases hu : Parser.isKeyword "if" u.token = true
        · rw [if_pos hu, readOtherwise_chain ht hu]
          exact .locate hnext (.map (fun x => [x]) hnext
            (follows_condition (by omega) hnext (ne_eof_of_isKeyword hu).symm))
        · rw [if_neg hu, readOtherwise_block ht (by simpa using hu)]
          exact follows_block (by rw [List.length_cons]; omega) hnext
    · rw [if_neg ht, readOtherwise_omitted (by simpa using ht)]
      exact .pure []
termination_by n

/-- A block is read as from a list. -/
theorem follows_block {n : Nat} {cx : ParseContext} {pos : Nat} {ts : List Lexeme}
    (hn : 2 * ts.length < n) (h : Sees cx s pos ts) :
    Follows (rules n).block s pos ts (readBlock cx ts) := by
  obtain ⟨n, rfl⟩ := Nat.exists_eq_succ_of_ne_zero (Nat.ne_zero_of_lt hn)
  rw [readBlock_eq]
  refine .locate h (.bind h ((agrees_mark (by decide)).follows (Nat.le_refl _) h) ?_)
  intro _ p rest hmark hsees
  have hlength : rest.length < ts.length := by
    obtain ⟨t, rfl, -⟩ := Parser.take_eq_ok.1 hmark
    exact Nat.lt_succ_self _
  exact follows_blockRest (by omega) hsees
termination_by n

/-- What follows the opening brace of a block is read as from a list. -/
theorem follows_blockRest {n : Nat} {cx : ParseContext} {pos : Nat} {o : Origin}
    {ts : List Lexeme} (hn : 2 * ts.length + 1 < n) (h : Sees cx s pos ts) :
    Follows ((rules n).blockRest o) s pos ts (readBlockRest cx o ts) := by
  obtain ⟨n, rfl⟩ := Nat.exists_eq_succ_of_ne_zero (Nat.ne_zero_of_lt hn)
  cases ts with
  | nil =>
    rw [readBlockRest_nil]
    exact .look h rfl
  | cons t ts =>
    rw [readBlockRest_cons]
    refine .look_cons h ?_
    by_cases hbrace : t.token = .rbrace
    · simp only [hbrace, if_true]
      exact .step h (by rw [hbrace]; nofun) (.pure [])
    · by_cases heof : t.token = .eof
      · simp only [heof, if_true, if_false, reduceCtorEq]
        rfl
      · simp only [hbrace, heof, if_false]
        refine .bind h (follows_statement (by omega) h) ?_
        intro first p rest hfirst hsees
        have hlength : rest.length < (t :: ts).length := length_of_map_pair hfirst
        exact .map (first :: ·) hsees (follows_blockRest (by omega) hsees)
termination_by n

end

theorem answer_map {w : Walk α} (f : α → β) :
    (w >>= fun a => pure (f a)).answer s pos = (w.answer s pos).map (Except.map f) := by
  show Option.map _ (Option.bind (w s pos) _) = Option.map _ (Option.map _ (w s pos))
  rcases w s pos with _ | (e | x) <;> rfl

theorem answer_of_ok {w : Walk α} {f : α → Walk β} {a : α} {p : Nat}
    (h : w s pos = some (.ok (a, p))) : (w >>= f).answer s pos = (f a).answer s p :=
  congrArg (Option.map (Except.map Prod.fst)) (bind_of_ok h)

theorem answer_of_error {w : Walk α} {e : Halt} (h : w s pos = some (.error e)) :
    w.answer s pos = some (.error e) :=
  congrArg (Option.map (Except.map Prod.fst)) h

/-- The statements up to the end of the script are those that are read from a list. -/
theorem answer_statements : ∀ {n pos : Nat} {ts : List Lexeme}, 2 * ts.length + 1 < n →
    Sees cx s pos ts → (rules n).statements.answer s pos =
      some ((Grammar.statements cx ts).mapError .refused)
  | n + 1, pos, ts, hn, h => by
    refine (answer_of_ok (current_eq h)).trans ?_
    cases ts with
    | nil =>
      rw [statements_nil]
      rfl
    | cons t ts =>
      rw [statements_cons]
      show answer (if t.token = .eof then _ else if t.token = .rbrace then _ else _) s pos = _
      split
      · rfl
      · split
        · exact answer_of_error (refuse_eq h _)
        · have hfirst := follows_statement (n := n) (by omega) h
          cases hread : readStatement cx (t :: ts) with
          | error e =>
            rw [hread] at hfirst
            exact answer_of_error (bind_of_error hfirst)
          | ok x =>
            obtain ⟨first, rest⟩ := x
            have hrest : rest.length < (t :: ts).length := length_of_map_pair hread
            rw [hread] at hfirst
            obtain ⟨taken, htaken, hnoEnd, hrun⟩ := hfirst
            rw [htaken] at h
            rw [answer_of_ok hrun, answer_map, answer_statements (by omega) (h.skip hnoEnd)]
            show _ = some (((Grammar.statements cx rest).map (first :: ·)).mapError Halt.refused)
            cases Grammar.statements cx rest <;> rfl

/-! ## Scripts -/

/-- The tokens have no end of the script among them, or a first one. -/
theorem exists_end (ts : List Lexeme) : (∀ t ∈ ts, t.token ≠ .eof) ∨
    ∃ front e behind, ts = front ++ e :: behind ∧ (∀ t ∈ front, t.token ≠ .eof) ∧
      e.token = .eof := by
  cases hfind : ts.find? (·.token = .eof) with
  | none => exact .inl (by simpa using hfind)
  | some e =>
    obtain ⟨he, front, behind, hts, hfront⟩ := List.find?_eq_some_iff_append.1 hfind
    exact .inr ⟨front, e, behind, hts, by simpa using hfront, by simpa using he⟩

/-- A list with an end of the script is seen as it is, whatever is behind the end. -/
theorem sees_of_end {front behind tail : List Lexeme} {e : Lexeme} (hfile : s.file = cx.file)
    (hdrop : s.tokens.drop pos = front ++ e :: behind) (hfront : ∀ t ∈ front, t.token ≠ .eof)
    (he : e.token = .eof) : Sees cx s pos (front ++ e :: tail) :=
  .intro hfile hdrop hfront he rfl

/-- A list without an end is seen where the implied one is behind it. -/
theorem sees_of_impliedEnd {file : String} (hts : ∀ t ∈ ts, t.token ≠ .eof) :
    Sees ⟨file, (impliedEnd ts).position⟩ ⟨file, ts ++ [impliedEnd ts]⟩ 0 ts := by
  have h : Sees ⟨file, (impliedEnd ts).position⟩ ⟨file, ts ++ [impliedEnd ts]⟩ 0 (ts ++ []) :=
    .intro rfl rfl hts rfl rfl
  rwa [List.append_nil] at h

/-- What is read from a list is what the cursor has before it in the terminated list. -/
theorem sees_terminated (file : String) (ts : List Lexeme) :
    Sees ⟨file, (impliedEnd ts).position⟩ ⟨file, terminated ts⟩ 0 ts := by
  rw [terminated]
  split
  · next hlast =>
    obtain ⟨t, ht, heof⟩ := Option.map_eq_some_iff.1 hlast
    obtain hnone | ⟨front, e, behind, rfl, hfront, he⟩ := exists_end ts
    · exact absurd heof (hnone t (List.mem_of_getLast? ht))
    · exact sees_of_end rfl rfl hfront he
  · obtain hnone | ⟨front, e, behind, rfl, hfront, he⟩ := exists_end ts
    · exact sees_of_impliedEnd hnone
    · exact sees_of_end rfl (List.append_assoc ..) hfront he

/-- A script is read by the cursor as it is read from a list. -/
theorem parse_eq (file : String) (hn : 2 * ts.length + 1 < n) :
    parse n file ts = some ((parseTokens file ts).mapError .refused) :=
  answer_statements hn (sees_terminated file ts)

/-! ## The first end -/

/-- The tokens up to the first end of the script, or all if there is none. -/
def throughEnd : List Lexeme → List Lexeme
  | [] => []
  | t :: ts => if t.token = .eof then [t] else t :: throughEnd ts

private theorem throughEnd_eq_self (hts : ∀ t ∈ ts, t.token ≠ .eof) : throughEnd ts = ts := by
  induction ts with
  | nil => rfl
  | cons t ts ih =>
    obtain ⟨ht, hts⟩ := List.forall_mem_cons.1 hts
    rw [throughEnd, if_neg ht, ih hts]

theorem throughEnd_append {front behind : List Lexeme} {e : Lexeme}
    (hfront : ∀ t ∈ front, t.token ≠ .eof) (he : e.token = .eof) :
    throughEnd (front ++ e :: behind) = front ++ [e] := by
  induction front with
  | nil => rw [List.nil_append, throughEnd, if_pos he, List.nil_append]
  | cons t front ih =>
    obtain ⟨ht, hfront⟩ := List.forall_mem_cons.1 hfront
    rw [List.cons_append, throughEnd, if_neg ht, ih hfront, List.cons_append]

/-- What is seen with a cursor in one place is read in one way. -/
theorem statements_eq_of_sees {cx' : ParseContext} {us : List Lexeme} (hts : Sees cx s pos ts)
    (hus : Sees cx' s pos us) : Grammar.statements cx ts = Grammar.statements cx' us := by
  have hdeep : 2 * ts.length + 1 < 2 * (ts.length + us.length) + 2 := by omega
  have hdeep' : 2 * us.length + 1 < 2 * (ts.length + us.length) + 2 := by omega
  have h := (answer_statements hdeep hts).symm.trans (answer_statements hdeep' hus)
  cases hr : Grammar.statements cx ts <;> cases hr' : Grammar.statements cx' us <;>
    simp_all [Except.mapError]

/-- What is behind the first end of the script is not read. -/
theorem parseTokens_throughEnd (file : String) (ts : List Lexeme) :
    parseTokens file (throughEnd ts) = parseTokens file ts := by
  obtain hnone | ⟨front, e, behind, rfl, hfront, he⟩ := exists_end ts
  · rw [throughEnd_eq_self hnone]
  · rw [throughEnd_append hfront he]
    exact @statements_eq_of_sees _ ⟨file, front ++ [e]⟩ 0 _ _ _
      (sees_of_end rfl rfl hfront he) (sees_of_end rfl rfl hfront he)

/-- A missing end of the script is read as if it were there. -/
theorem parseTokens_impliedEnd (file : String) (ts : List Lexeme) :
    parseTokens file (ts ++ [impliedEnd ts]) = parseTokens file ts := by
  obtain hnone | ⟨front, e, behind, rfl, hfront, he⟩ := exists_end ts
  · exact @statements_eq_of_sees _ ⟨file, ts ++ [impliedEnd ts]⟩ 0 _ _ _
      (sees_of_end rfl rfl hnone rfl) (sees_of_impliedEnd hnone)
  · rw [← parseTokens_throughEnd, List.append_assoc, List.cons_append, throughEnd_append hfront he,
      ← parseTokens_throughEnd file (front ++ e :: behind), throughEnd_append hfront he]

/-- A statement ends, and a statement that is read takes tokens of the script, and none behind the
next end of it. -/
theorem statement_advances (hn : 2 * s.tokens.length < n)
    (hend : s.tokens.getLast?.map (·.token) = some .eof) (hpos : pos < s.tokens.length) :
    (∃ e, (rules n).statement s pos = some (.error (.refused e))) ∨
      ∃ a p, (rules n).statement s pos = some (.ok (a, p)) ∧ pos < p ∧ p < s.tokens.length ∧
        ∀ t ∈ (s.tokens.drop pos).take (p - pos), t.token ≠ .eof := by
  obtain ⟨front, e, behind, hdrop, hfront, he⟩ : ∃ front e behind,
      s.tokens.drop pos = front ++ e :: behind ∧ (∀ t ∈ front, t.token ≠ .eof) ∧
        e.token = .eof := by
    refine (exists_end _).resolve_left fun hnone => ?_
    obtain ⟨t, ht, heof⟩ := Option.map_eq_some_iff.1 hend
    refine hnone t (List.mem_of_getLast? ?_) heof
    rw [List.getLast?_drop, if_neg (Nat.not_le.2 hpos), ht]
  have hsees : Sees ⟨s.file, .start⟩ s pos (s.tokens.drop pos) := by
    rw [hdrop]
    exact sees_of_end rfl hdrop hfront he
  have hdeep : 2 * (s.tokens.drop pos).length < n := by
    rw [List.length_drop]
    omega
  have hstatement := follows_statement hdeep hsees
  cases hread : readStatement ⟨s.file, .start⟩ (s.tokens.drop pos) with
  | error e =>
    rw [hread] at hstatement
    exact .inl ⟨e, hstatement⟩
  | ok x =>
    obtain ⟨a, rest⟩ := x
    have hlength : rest.length < (s.tokens.drop pos).length := length_of_map_pair hread
    rw [hread] at hstatement
    obtain ⟨taken, htaken, hnoEnd, hrun⟩ := hstatement
    rw [htaken] at hsees hlength
    refine .inr ⟨a, _, hrun, ?_, (hsees.skip hnoEnd).pos_lt, ?_⟩
    · rw [List.length_append] at hlength
      omega
    · rw [htaken, Nat.add_sub_cancel_left, List.take_left]
      exact hnoEnd

/-- The grammar on a cursor ends on any list of tokens, with calls that are hardly deeper than twice
the number of tokens. It never looks for a token that is not there, and gives what is read from the
list. Each of its statements takes a token, and none goes past an end of the script. So only the
tokens up to the first end count, and a missing end is implied behind the last token. -/
theorem parse_within (file : String) (ts : List Lexeme) :
    (∀ n, 2 * ts.length + 1 < n →
      parse n file ts = some ((parseTokens file ts).mapError .refused)) ∧
    (∀ n s pos, 2 * s.tokens.length < n → s.tokens.getLast?.map (·.token) = some .eof →
      pos < s.tokens.length →
        (∃ e, (rules n).statement s pos = some (.error (.refused e))) ∨
          ∃ a p, (rules n).statement s pos = some (.ok (a, p)) ∧ pos < p ∧ p < s.tokens.length ∧
            ∀ t ∈ (s.tokens.drop pos).take (p - pos), t.token ≠ .eof) ∧
    (∀ us, throughEnd us = throughEnd ts → parseTokens file us = parseTokens file ts) ∧
    parseTokens file (ts ++ [impliedEnd ts]) = parseTokens file ts := by
  refine ⟨fun n => parse_eq file, fun n s pos => statement_advances, fun us hus => ?_,
    parseTokens_impliedEnd file ts⟩
  rw [← parseTokens_throughEnd file us, hus, parseTokens_throughEnd]

/-- A script of one statement. -/
def oneDeletion : List Lexeme :=
  [⟨.word "delete", ⟨1, 1⟩⟩, ⟨.str "/x", ⟨1, 8⟩⟩, ⟨.semi, ⟨1, 12⟩⟩, ⟨.eof, ⟨1, 13⟩⟩]

/-- A brace behind the end of a script is not read. -/
theorem parse_within_oneDeletion :
    parse 10 "a" oneDeletion = some ((parseTokens "a" oneDeletion).mapError .refused) ∧
    ((∃ e, (rules 10).statement ⟨"a", oneDeletion⟩ 0 = some (.error (.refused e))) ∨
      ∃ a p, (rules 10).statement ⟨"a", oneDeletion⟩ 0 = some (.ok (a, p)) ∧ 0 < p ∧
        p < oneDeletion.length ∧ ∀ t ∈ (oneDeletion.drop 0).take (p - 0), t.token ≠ .eof) ∧
    parseTokens "a" (oneDeletion ++ [⟨.rbrace, ⟨2, 1⟩⟩]) = parseTokens "a" oneDeletion :=
  have h := parse_within "a" oneDeletion
  ⟨h.1 10 (by decide), h.2.1 10 ⟨"a", oneDeletion⟩ 0 (by decide) rfl (by decide), h.2.2.1 _ rfl⟩

end Entitle.Walk
