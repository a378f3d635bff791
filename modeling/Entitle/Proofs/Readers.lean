import Entitle.Proofs.Phrases

/-!
# What the readers of statement parts take

Each reader of the grammar takes exactly the phrases of its form. A reader that succeeds has found a
phrase of what it gives, and where a phrase stands it succeeds. Where a part may be missing or a
list may go on, the token behind it decides.

## Main statements

* `Parser.quoted_eq_ok`, `Parser.keyword_eq_ok` and the like: the readers of one token.
* `Parser.privileges_eq_ok`, `Parser.restrictions_eq_ok`: the readers of lists.
* `Grammar.of_simple_eq_ok`, `Grammar.exists_simple_eq_ok`: the statements without a block.
-/
namespace Entitle

open Phrase

namespace Parser

variable {α β : Type} {cx : ParseContext} {ts rest : List Lexeme}

/-! ## Sequences -/

theorem run_bind_eq_ok {p : Parser α} {f : α → Parser β} {b : β} :
    (p >>= f).run cx ts = .ok (b, rest) ↔
      ∃ a mid, p.run cx ts = .ok (a, mid) ∧ (f a).run cx mid = .ok (b, rest) := by
  rw [run_bind]
  constructor
  · intro h
    split at h
    · cases h
    · next a mid hp => exact ⟨a, mid, hp, h⟩
  · rintro ⟨a, mid, hp, hf⟩
    rw [hp]
    exact hf

theorem run_pure_eq_ok {a b : α} :
    (Pure.pure a : Parser α).run cx ts = .ok (b, rest) ↔ b = a ∧ ts = rest := by
  rw [run_pure]
  constructor
  · intro h
    cases h
    exact ⟨rfl, rfl⟩
  · rintro ⟨rfl, rfl⟩
    rfl

theorem run_map_eq_ok {p : Parser α} {f : α → β} {b : β} :
    (f <$> p).run cx ts = .ok (b, rest) ↔ ∃ a, b = f a ∧ p.run cx ts = .ok (a, rest) := by
  show (p >>= fun a => Pure.pure (f a)).run cx ts = _ ↔ _
  rw [run_bind_eq_ok]
  constructor
  · rintro ⟨a, mid, hp, ha⟩
    obtain ⟨rfl, rfl⟩ := run_pure_eq_ok.1 ha
    exact ⟨a, rfl, hp⟩
  · rintro ⟨a, rfl, hp⟩
    exact ⟨a, rest, hp, run_pure_eq_ok.2 ⟨rfl, rfl⟩⟩

/-! ## One token -/

theorem take_eq_ok {want : Token → Option α} {cause : Token → ParseError.Cause} {a : α} :
    (take want cause).run cx ts = .ok (a, rest) ↔
      ∃ t, ts = t :: rest ∧ want t.token = some a := by
  cases ts with
  | nil => simp [take]
  | cons t left =>
    simp only [take]
    cases h : want t.token with
    | none => simp [h]
    | some b =>
      simp only [Except.ok.injEq, Prod.mk.injEq, List.cons.injEq]
      constructor
      · rintro ⟨rfl, rfl⟩
        exact ⟨t, ⟨rfl, rfl⟩, h⟩
      · rintro ⟨_, ⟨rfl, rfl⟩, h'⟩
        rw [h, Option.some.injEq] at h'
        exact ⟨h', rfl⟩

/-- A reader of one token takes a slot if the tokens in it are the ones that are wanted. -/
theorem take_eq_ok_iff_leads {want : Token → Option α} {cause : Token → ParseError.Cause} {a : α}
    {slot : Slot} (h : ∀ t, want t = some a ↔ slot t = true) :
    (take want cause).run cx ts = .ok (a, rest) ↔ Leads [slot] ts rest := by
  rw [take_eq_ok, leads_singleton]
  simp only [h]

theorem keyword_eq_ok {k : String} {u : Unit} :
    (keyword k).run cx ts = .ok (u, rest) ↔ Leads [.spelled k] ts rest :=
  take_eq_ok_iff_leads fun t => by
    by_cases h : isKeyword k t = true <;> simp [h, Slot.spelled]

theorem mark_eq_ok {m : Token} {u : Unit} :
    (mark m).run cx ts = .ok (u, rest) ↔ Leads [.mark m] ts rest :=
  take_eq_ok_iff_leads fun t => by
    by_cases h : t = m <;> simp [h, Slot.mark]

theorem finish_eq_ok {u : Unit} :
    finish.run cx ts = .ok (u, rest) ↔ Leads [.mark .semi] ts rest :=
  take_eq_ok_iff_leads fun t => by
    by_cases h : t = .semi <;> simp [h, Slot.mark]

theorem word_eq_ok {w : String} :
    word.run cx ts = .ok (w, rest) ↔ Leads [.word w] ts rest :=
  take_eq_ok_iff_leads fun t => by cases t <;> simp [Slot.word]

theorem quoted_eq_ok {what s : String} :
    (quoted what).run cx ts = .ok (s, rest) ↔ Leads [.str s] ts rest :=
  take_eq_ok_iff_leads fun t => by cases t <;> simp [Slot.str]

theorem restrictionName_eq_ok {n : String} :
    restrictionName.run cx ts = .ok (n, rest) ↔ Leads [.name n] ts rest :=
  take_eq_ok_iff_leads fun t => by cases t <;> simp [Slot.name]

/-- A token is spelled in one way. -/
theorem eq_of_isKeyword {k k' : String} {t : Token} (h : isKeyword k t = true)
    (h' : isKeyword k' t = true) : k = k' := by
  cases t with
  | word w =>
    simp only [isKeyword, beq_iff_eq] at h h'
    rw [← h, h']
  | _ => cases h

theorem isKeyword_eq_false {k k' : String} {t : Token} (h : isKeyword k t = true) (hne : k ≠ k') :
    isKeyword k' t = false :=
  Bool.eq_false_iff.2 fun h' => hne (eq_of_isKeyword h h')

/-- One of two values, each with a keyword of its own. -/
theorem either_eq_ok {k₁ k₂ : String} {a₁ a₂ a : α} {cause : Token → ParseError.Cause}
    (hk : k₁ ≠ k₂) :
    (either k₁ a₁ k₂ a₂ cause).run cx ts = .ok (a, rest) ↔
      a = a₁ ∧ Leads [.spelled k₁] ts rest ∨ a = a₂ ∧ Leads [.spelled k₂] ts rest := by
  simp only [either, take_eq_ok, leads_singleton, Slot.spelled]
  constructor
  · rintro ⟨t, rfl, ht⟩
    split at ht
    · next h₁ => exact .inl ⟨(Option.some.inj ht).symm, t, rfl, h₁⟩
    · split at ht
      · next h₂ => exact .inr ⟨(Option.some.inj ht).symm, t, rfl, h₂⟩
      · cases ht
  · rintro (⟨rfl, t, rfl, h₁⟩ | ⟨rfl, t, rfl, h₂⟩)
    · exact ⟨t, rfl, if_pos h₁⟩
    · refine ⟨t, rfl, ?_⟩
      rw [isKeyword_eq_false h₂ hk.symm, if_neg Bool.false_ne_true, if_pos h₂]

theorem kind_eq_ok {cause : Token → ParseError.Cause} {kind : PrincipalKind} :
    (either "user" PrincipalKind.user "group" .group cause).run cx ts = .ok (kind, rest) ↔
      Leads [.spelled kind.name] ts rest := by
  rw [either_eq_ok (by simp)]
  cases kind <;> simp [PrincipalKind.name]

theorem truth_eq_ok {cause : Token → ParseError.Cause} {value : Bool} :
    (either "true" true "false" false cause).run cx ts = .ok (value, rest) ↔
      Leads [.spelled (if value then "true" else "false")] ts rest := by
  rw [either_eq_ok (by simp)]
  cases value <;> simp

/-! ## Parts that may be missing -/

theorem optionalKeyword_eq_ok {k : String} {there : Bool} :
    (optionalKeyword k).run cx ts = .ok (there, rest) ↔
      there = true ∧ Leads [.spelled k] ts rest ∨
        there = false ∧ ts = rest ∧ Lacks (.spelled k) ts := by
  cases ts with
  | nil => cases there <;> simp [optionalKeyword, leads_singleton]
  | cons t left =>
    simp only [optionalKeyword, leads_singleton, lacks_cons, Slot.spelled]
    by_cases h : isKeyword k t.token = true
    · cases there <;> simp [h]
    · cases there <;> simp [h]

/-- What follows depends on whether a keyword is there. -/
theorem optional_eq_ok {k : String} {p q : Parser α} {a : α} :
    (∃ there mid, (optionalKeyword k).run cx ts = .ok (there, mid) ∧
        (if there = true then p else q).run cx mid = .ok (a, rest)) ↔
      (∃ mid, Leads [.spelled k] ts mid ∧ p.run cx mid = .ok (a, rest)) ∨
        Lacks (.spelled k) ts ∧ q.run cx ts = .ok (a, rest) := by
  constructor
  · rintro ⟨there, mid, hthere, h⟩
    rcases optionalKeyword_eq_ok.1 hthere with ⟨rfl, hk⟩ | ⟨rfl, rfl, hk⟩
    · exact .inl ⟨mid, hk, h⟩
    · exact .inr ⟨hk, h⟩
  · rintro (⟨mid, hk, h⟩ | ⟨hk, h⟩)
    · exact ⟨true, mid, optionalKeyword_eq_ok.2 (.inl ⟨rfl, hk⟩), h⟩
    · exact ⟨false, ts, optionalKeyword_eq_ok.2 (.inr ⟨rfl, rfl, hk⟩), h⟩

/-! ## Lists -/

theorem privilege?_eq_some {t : Token} {p : String} :
    privilege? t = some p ↔ lowered p ≠ "on" ∧ Slot.word p t = true := by
  cases t with
  | word w =>
    simp only [privilege?, Slot.word]
    by_cases h : lowered w = "on"
    · simp only [h, beq_self_eq_true, if_true, reduceCtorEq, false_iff, not_and, beq_iff_eq,
        Token.word.injEq]
      rintro hp rfl
      exact hp h
    · simp only [beq_eq_false_iff_ne.2 h, Bool.false_eq_true, if_false, Option.some.injEq,
        beq_iff_eq, Token.word.injEq]
      constructor
      · rintro rfl
        exact ⟨h, rfl⟩
      · rintro ⟨-, rfl⟩
        rfl
  | _ => simp [privilege?, Slot.word]

/-- The reader of privileges takes the longest list. -/
theorem privileges_eq_ok {ps : List String} :
    privileges.run cx ts = .ok (ps, rest) ↔
      Privileges.Clear ps ∧ Leads (separated (fun p => [.word p]) ps) ts rest ∧
        Lacks (.mark .comma) rest := by
  show readPrivileges cx ts = _ ↔ _
  constructor
  · intro h
    fun_induction readPrivileges cx ts generalizing ps with
    | case1 | case3 | case4 => cases h
    | case2 t p hp =>
      cases h
      obtain ⟨hon, hword⟩ := privilege?_eq_some.1 hp
      exact ⟨⟨by simp, by simpa using hon⟩, leads_singleton.2 ⟨t, rfl, hword⟩, lacks_nil _⟩
    | case5 t u more p hp hu ih =>
      cases hr : readPrivileges cx more with
      | error e => simp [hr, Except.map] at h
      | ok r =>
        obtain ⟨qs, left⟩ := r
        simp only [hr, Except.map, Except.ok.injEq, Prod.mk.injEq] at h
        obtain ⟨rfl, rfl⟩ := h
        obtain ⟨hon, hword⟩ := privilege?_eq_some.1 hp
        obtain ⟨⟨hne, hons⟩, hleads, hlacks⟩ := ih hr
        refine ⟨⟨by simp, List.forall_mem_cons.2 ⟨hon, hons⟩⟩, ?_, hlacks⟩
        cases qs with
        | nil => exact absurd rfl hne
        | cons q qs =>
          refine leads_cons_cons.2 ⟨hword, leads_cons_cons.2 ⟨?_, hleads⟩⟩
          simp [Slot.mark, hu]
    | case6 t u more p hp hu =>
      cases h
      obtain ⟨hon, hword⟩ := privilege?_eq_some.1 hp
      refine ⟨⟨by simp, by simpa using hon⟩, leads_singleton.2 ⟨t, rfl, hword⟩, ?_⟩
      simp [Slot.mark, hu]
  · rintro ⟨⟨hne, hons⟩, hleads, hlacks⟩
    induction ps generalizing ts with
    | nil => exact absurd rfl hne
    | cons p ps ih =>
      obtain ⟨hon, hons⟩ := List.forall_mem_cons.1 hons
      cases ps with
      | nil =>
        obtain ⟨t, rfl, ht⟩ := leads_singleton.1 hleads
        have hp := privilege?_eq_some.2 ⟨hon, ht⟩
        cases rest with
        | nil => simp [readPrivileges, hp]
        | cons u rest =>
          have hu : u.token ≠ .comma := by simpa [Slot.mark] using hlacks
          simp [readPrivileges, hp, hu]
      | cons q ps =>
        obtain ⟨t, left, rfl, ht, u, more, rfl, hu, hmore⟩ := hleads
        have hp := privilege?_eq_some.2 ⟨hon, ht⟩
        have hu : u.token = .comma := by simpa [Slot.mark] using hu
        simp [readPrivileges, hp, hu, ih (by simp) hons hmore, Except.map]

theorem restriction_eq_ok {r : String × String} :
    restriction.run cx ts = .ok (r, rest) ↔
      Leads [.name r.1, .mark .eq, .str r.2] ts rest := by
  simp only [restriction, run_bind_eq_ok, run_pure_eq_ok, restrictionName_eq_ok, mark_eq_ok,
    quoted_eq_ok]
  constructor
  · rintro ⟨key, m₁, hkey, _, m₂, heq, value, m₃, hvalue, rfl, rfl⟩
    exact leads_append.2 ⟨_, hkey, leads_append.2 ⟨_, heq, hvalue⟩⟩
  · intro h
    obtain ⟨m₁, hkey, h⟩ := leads_append (p := [.name r.1]).1 h
    obtain ⟨m₂, heq, hvalue⟩ := leads_append (p := [.mark .eq]).1 h
    exact ⟨r.1, m₁, hkey, (), m₂, heq, r.2, _, hvalue, rfl, rfl⟩

/-- The reader of restrictions takes the longest list. -/
theorem restrictions_eq_ok {rs : List (String × String)} :
    Parser.restrictions.run cx ts = .ok (rs, rest) ↔
      rs ≠ [] ∧ Leads (separated Phrase.restriction rs) ts rest ∧ Lacks (.mark .comma) rest := by
  show readRestrictions cx ts = _ ↔ _
  constructor
  · intro h
    fun_induction readRestrictions cx ts generalizing rs with
    | case1 => cases h
    | case2 ts r u more hr hu hle hlt ih =>
      cases hmore : readRestrictions cx more with
      | error e => simp [hmore, Except.map] at h
      | ok v =>
        obtain ⟨qs, left⟩ := v
        simp only [hmore, Except.map, Except.ok.injEq, Prod.mk.injEq] at h
        obtain ⟨rfl, rfl⟩ := h
        obtain ⟨hne, hleads, hlacks⟩ := ih hmore
        refine ⟨by simp, ?_, hlacks⟩
        cases qs with
        | nil => exact absurd rfl hne
        | cons q qs =>
          refine leads_append.2 ⟨_, restriction_eq_ok.1 hr, leads_cons_cons.2 ⟨?_, hleads⟩⟩
          simp [Slot.mark, hu]
    | case3 ts r u more hr hu =>
      cases h
      exact ⟨by simp, restriction_eq_ok.1 hr, by simp [Slot.mark, hu]⟩
    | case4 ts r hr =>
      cases h
      exact ⟨by simp, restriction_eq_ok.1 hr, lacks_nil _⟩
  · rintro ⟨hne, hleads, hlacks⟩
    induction rs generalizing ts with
    | nil => exact absurd rfl hne
    | cons r rs ih =>
      cases rs with
      | nil =>
        have hr : restriction.run cx ts = .ok (r, rest) := restriction_eq_ok.2 hleads
        rw [readRestrictions]
        cases rest with
        | nil => split <;> simp_all
        | cons u rest =>
          have hu : u.token ≠ .comma := by simpa [Slot.mark] using hlacks
          split <;> simp_all
      | cons q rs =>
        obtain ⟨mid, hfirst, u, more, rfl, hu, hmore⟩ := leads_append.1 hleads
        have hr : restriction.run cx ts = .ok (r, u :: more) := restriction_eq_ok.2 hfirst
        have hu : u.token = .comma := by simpa [Slot.mark] using hu
        have hrest := ih (by simp) hmore
        rw [readRestrictions]
        split <;> simp_all [Except.map]

/-- What a permission is about ends its list of privileges. -/
theorem grantTarget_eq_ok {target : List String × String × String} :
    grantTarget.run cx ts = .ok (target, rest) ↔
      Privileges.Clear target.1 ∧ Leads (Phrase.grant target.1 target.2.1 target.2.2) ts rest := by
  simp only [grantTarget, run_bind_eq_ok, run_pure_eq_ok, privileges_eq_ok, keyword_eq_ok,
    quoted_eq_ok, Phrase.grant, leads_append, leads_cons_cons_iff]
  constructor
  · rintro ⟨ps, m₁, ⟨hclear, hps, -⟩, _, m₂, hon, path, m₃, hpath, _, m₄, hfor, principal, m₅,
      hprincipal, rfl, rfl⟩
    exact ⟨hclear, m₁, hps, m₂, hon, m₃, hpath, m₄, hfor, hprincipal⟩
  · rintro ⟨hclear, m₁, hps, m₂, hon, m₃, hpath, m₄, hfor, hprincipal⟩
    have hcomma : Lacks (.mark .comma) m₁ := hon.lacks fun t ht => by
      cases t with
      | word w => rfl
      | _ => cases ht
    exact ⟨_, m₁, ⟨hclear, hps, hcomma⟩, (), m₂, hon, _, m₃, hpath, (), m₄, hfor, _, _, hprincipal,
      rfl, rfl⟩

end Parser

/-! ## Statements without a block -/

namespace Grammar

open Entitle.Parser

variable {cx : ParseContext} {ts rest : List Lexeme} {d : Directive}

theorem membership_eq_ok {preposition : String} {make : String → String → Directive} :
    (membership preposition make).run cx ts = .ok (d, rest) ↔ ∃ member group,
      d = make member group ∧
        Leads [.str member, .spelled preposition, .str group, .mark .semi] ts rest := by
  simp only [membership, run_bind_eq_ok, run_pure_eq_ok, keyword_eq_ok, quoted_eq_ok, finish_eq_ok,
    leads_cons_cons_iff]
  constructor
  · rintro ⟨member, m₁, hmember, _, m₂, hto, group, m₃, hgroup, _, m₄, hsemi, rfl, rfl⟩
    exact ⟨member, group, rfl, m₁, hmember, m₂, hto, m₃, hgroup, hsemi⟩
  · rintro ⟨member, group, rfl, m₁, hmember, m₂, hto, m₃, hgroup, hsemi⟩
    exact ⟨member, m₁, hmember, (), m₂, hto, group, m₃, hgroup, (), _, hsemi, rfl, rfl⟩

/-- A part that may be missing is ended by the semicolon. -/
theorem clause_eq_ok {α : Type} {k what : String} {make : Option String → α} {a : α} :
    (∃ there mid, (optionalKeyword k).run cx ts = .ok (there, mid) ∧
        (if there = true then do
            let o ← some <$> quoted what
            finish
            Pure.pure (make o)
          else do
            let o ← Pure.pure none
            finish
            Pure.pure (make o)).run cx mid = .ok (a, rest)) ↔
      ∃ o, a = make o ∧ Leads (clause k o ++ [.mark .semi]) ts rest := by
  simp only [optional_eq_ok, run_bind_eq_ok, run_map_eq_ok, run_pure_eq_ok, quoted_eq_ok,
    finish_eq_ok]
  constructor
  · rintro (⟨m₁, hk, _, m₂, ⟨s, rfl, hs⟩, _, m₃, hsemi, rfl, rfl⟩ |
      ⟨-, _, _, ⟨rfl, rfl⟩, _, m₃, hsemi, rfl, rfl⟩)
    · exact ⟨some s, rfl, leads_append.2 ⟨m₂, leads_cons_cons_iff.2 ⟨m₁, hk, hs⟩, hsemi⟩⟩
    · exact ⟨none, rfl, hsemi⟩
  · rintro ⟨o, rfl, h⟩
    cases o with
    | none => exact .inr ⟨h.lacks_of_mark rfl, none, ts, ⟨rfl, rfl⟩, (), rest, h, rfl, rfl⟩
    | some s =>
      obtain ⟨m₂, h, hsemi⟩ := leads_append.1 h
      obtain ⟨m₁, hk, hs⟩ := leads_cons_cons_iff.1 h
      exact .inl ⟨m₁, hk, some s, m₂, ⟨s, rfl, hs⟩, (), rest, hsemi, rfl, rfl⟩

theorem creation_eq_ok :
    creation.run cx ts = .ok (d, rest) ↔ ∃ kind id path, d = .create kind id path ∧
      Leads ([.spelled kind.name, .str id] ++ clause "at" path ++ [.mark .semi]) ts rest := by
  simp only [creation, run_bind_eq_ok, clause_eq_ok, kind_eq_ok, quoted_eq_ok, List.append_assoc,
    leads_append (q := _ ++ _), leads_cons_cons_iff]
  constructor
  · rintro ⟨kind, m₁, hkind, id, m₂, hid, path, rfl, hpath⟩
    exact ⟨kind, id, path, rfl, m₂, ⟨m₁, hkind, hid⟩, hpath⟩
  · rintro ⟨kind, id, path, rfl, m₂, ⟨m₁, hkind, hid⟩, hpath⟩
    exact ⟨kind, m₁, hkind, id, m₂, hid, path, rfl, hpath⟩

theorem permission_eq_ok {effect : Effect} :
    (permission effect).run cx ts = .ok (d, rest) ↔ ∃ ps path principal rs,
      d = .permission effect ps path principal rs ∧ Privileges.Clear ps ∧
        Leads (Phrase.grant ps path principal ++ Phrase.restrictions rs ++ [.mark .semi]) ts
          rest := by
  simp only [permission, run_bind_eq_ok, optional_eq_ok, grantTarget_eq_ok, restrictions_eq_ok,
    run_pure_eq_ok, finish_eq_ok, leads_append]
  constructor
  · rintro ⟨⟨ps, path, principal⟩, m₁, ⟨hclear, htarget⟩,
      (⟨m₂, hwith, rs, m₃, ⟨hne, hrs, -⟩, _, m₄, hsemi, rfl, rfl⟩ |
        ⟨-, _, _, ⟨rfl, rfl⟩, _, m₄, hsemi, rfl, rfl⟩)⟩
    · cases rs with
      | nil => exact absurd rfl hne
      | cons r rs =>
        exact ⟨ps, path, principal, r :: rs, rfl, hclear, m₃,
          ⟨m₁, htarget, leads_split.2 ⟨m₂, hwith, hrs⟩⟩, hsemi⟩
    · exact ⟨ps, path, principal, [], rfl, hclear, m₁, ⟨m₁, htarget, rfl⟩, hsemi⟩
  · rintro ⟨ps, path, principal, rs, rfl, hclear, m₃, ⟨m₁, htarget, hrs⟩, hsemi⟩
    refine ⟨(ps, path, principal), m₁, ⟨hclear, htarget⟩, ?_⟩
    cases rs with
    | nil =>
      obtain rfl : m₁ = m₃ := hrs
      exact .inr ⟨hsemi.lacks_of_mark rfl, [], m₁, ⟨rfl, rfl⟩, (), rest, hsemi, rfl, rfl⟩
    | cons r rs =>
      obtain ⟨m₂, hwith, hrs⟩ := leads_split.1 hrs
      exact .inl ⟨m₂, hwith, r :: rs, m₃, ⟨by simp, hrs, hsemi.lacks_of_mark rfl⟩, (), rest, hsemi,
        rfl, rfl⟩

theorem propertySetting_eq_ok :
    propertySetting.run cx ts = .ok (d, rest) ↔ ∃ path key value, d = .setProperty path key value ∧
      Leads [.str key, .mark .eq, .str value, .spelled "on", .str path, .mark .semi] ts rest := by
  simp only [propertySetting, run_bind_eq_ok, run_pure_eq_ok, keyword_eq_ok, mark_eq_ok,
    quoted_eq_ok, finish_eq_ok, leads_cons_cons_iff]
  constructor
  · rintro ⟨key, m₁, hkey, _, m₂, heq, value, m₃, hvalue, _, m₄, hon, path, m₅, hpath, _, m₆, hsemi,
      rfl, rfl⟩
    exact ⟨path, key, value, rfl, m₁, hkey, m₂, heq, m₃, hvalue, m₄, hon, m₅, hpath, hsemi⟩
  · rintro ⟨path, key, value, rfl, m₁, hkey, m₂, heq, m₃, hvalue, m₄, hon, m₅, hpath, hsemi⟩
    exact ⟨key, m₁, hkey, (), m₂, heq, value, m₃, hvalue, (), m₄, hon, path, m₅, hpath, (), _,
      hsemi, rfl, rfl⟩

theorem transfer_eq_ok {make : String → String → Directive} :
    (transfer make).run cx ts = .ok (d, rest) ↔ ∃ source target, d = make source target ∧
      Leads [.str source, .spelled "to", .str target, .mark .semi] ts rest := by
  simp only [transfer, run_bind_eq_ok, run_pure_eq_ok, keyword_eq_ok, quoted_eq_ok, finish_eq_ok,
    leads_cons_cons_iff]
  constructor
  · rintro ⟨source, m₁, hsource, _, m₂, hto, target, m₃, htarget, _, m₄, hsemi, rfl, rfl⟩
    exact ⟨source, target, rfl, m₁, hsource, m₂, hto, m₃, htarget, hsemi⟩
  · rintro ⟨source, target, rfl, m₁, hsource, m₂, hto, m₃, htarget, hsemi⟩
    exact ⟨source, m₁, hsource, (), m₂, hto, target, m₃, htarget, (), _, hsemi, rfl, rfl⟩

theorem deletion_eq_ok :
    deletion.run cx ts = .ok (d, rest) ↔
      ∃ path, d = .delete path ∧ Leads [.str path, .mark .semi] ts rest := by
  simp only [deletion, run_bind_eq_ok, run_pure_eq_ok, quoted_eq_ok, finish_eq_ok,
    leads_cons_cons_iff]
  constructor
  · rintro ⟨path, m₁, hpath, _, m₂, hsemi, rfl, rfl⟩
    exact ⟨path, rfl, m₁, hpath, hsemi⟩
  · rintro ⟨path, rfl, m₁, hpath, hsemi⟩
    exact ⟨path, m₁, hpath, (), _, hsemi, rfl, rfl⟩

theorem purging_eq_ok :
    purging.run cx ts = .ok (d, rest) ↔ ∃ path principal, d = .purge path principal ∧
      Leads ([.str path] ++ clause "for" principal ++ [.mark .semi]) ts rest := by
  simp only [purging, run_bind_eq_ok, clause_eq_ok, quoted_eq_ok, List.append_assoc,
    leads_append (q := _ ++ _)]
  constructor
  · rintro ⟨path, m₁, hpath, principal, rfl, hprincipal⟩
    exact ⟨path, principal, rfl, m₁, hpath, hprincipal⟩
  · rintro ⟨path, principal, rfl, m₁, hpath, hprincipal⟩
    exact ⟨path, m₁, hpath, principal, rfl, hprincipal⟩

/-! ## Verifications -/

theorem presence_eq_ok {c : Check} :
    presence.run cx ts = .ok (c, rest) ↔ ∃ id kind, c = .present id kind ∧
      Leads (Phrase.presence id kind) ts rest ∧ (kind = none → Lacks (.spelled "as") rest) := by
  simp only [presence, run_bind_eq_ok, optional_eq_ok, run_map_eq_ok, run_pure_eq_ok, kind_eq_ok,
    quoted_eq_ok]
  constructor
  · rintro ⟨id, m₁, hid, (⟨m₂, has, _, m₃, ⟨kind, rfl, hkind⟩, rfl, rfl⟩ |
      ⟨hlacks, _, _, ⟨rfl, rfl⟩, rfl, rfl⟩)⟩
    · exact ⟨id, some kind, rfl,
        leads_cons_cons_iff.2 ⟨m₁, hid, leads_cons_cons_iff.2 ⟨m₂, has, hkind⟩⟩, by simp⟩
    · exact ⟨id, none, rfl, hid, fun _ => hlacks⟩
  · rintro ⟨id, kind, rfl, h, hlacks⟩
    cases kind with
    | none => exact ⟨id, rest, h, .inr ⟨hlacks rfl, none, rest, ⟨rfl, rfl⟩, rfl, rfl⟩⟩
    | some kind =>
      obtain ⟨m₁, hid, h⟩ := leads_cons_cons_iff.1 h
      obtain ⟨m₂, has, hkind⟩ := leads_cons_cons_iff.1 h
      exact ⟨id, m₁, hid, .inl ⟨m₂, has, some kind, rest, ⟨kind, rfl, hkind⟩, rfl, rfl⟩⟩

/-- The keyword that a verification begins with. -/
def CheckWord.text : CheckWord → String
  | .exists => "exists"
  | .not => "not"
  | .permission effect => effect.name

theorem checkWord_eq_ok {w : CheckWord} :
    checkWord.run cx ts = .ok (w, rest) ↔ Leads [.spelled w.text] ts rest := by
  refine take_eq_ok_iff_leads fun t => ?_
  constructor
  · intro h
    split at h
    · next hk => exact Option.some.inj h ▸ hk
    · split at h
      · next hk => exact Option.some.inj h ▸ hk
      · split at h
        · next hk => exact Option.some.inj h ▸ hk
        · split at h
          · next hk => exact Option.some.inj h ▸ hk
          · cases h
  · intro h
    have hother : ∀ k, w.text ≠ k → isKeyword k t = false := fun k => isKeyword_eq_false h
    rcases w with _ | _ | (_ | _) <;>
      simp_all [CheckWord.text, Effect.name, Slot.spelled]

theorem verification_eq_ok :
    verification.run cx ts = .ok (d, rest) ↔ ∃ c, d = .check c ∧ (Directive.check c).Clear ∧
      Leads (Phrase.check c ++ [.mark .semi]) ts rest := by
  simp only [verification, run_bind_eq_ok, checkWord_eq_ok, leads_append]
  constructor
  · rintro ⟨w, m₁, hw, h⟩
    cases w with
    | «exists» =>
      simp only [run_bind_eq_ok, presence_eq_ok, finish_eq_ok, run_pure_eq_ok] at h
      obtain ⟨_, m₂, ⟨id, kind, rfl, hid, -⟩, _, m₃, hsemi, rfl, rfl⟩ := h
      exact ⟨.present id kind, rfl, trivial, m₂, leads_split.2 ⟨m₁, hw, hid⟩, hsemi⟩
    | not =>
      simp only [run_bind_eq_ok, keyword_eq_ok, quoted_eq_ok, finish_eq_ok, run_pure_eq_ok] at h
      obtain ⟨_, m₂, hexists, id, m₃, hid, _, _, ⟨rfl, rfl⟩, _, m₄, hsemi, rfl, rfl⟩ := h
      exact ⟨.absent id, rfl, trivial, m₃,
        leads_split.2 ⟨m₁, hw, leads_split.2 ⟨m₂, hexists, hid⟩⟩, hsemi⟩
    | permission effect =>
      simp only [run_bind_eq_ok, grantTarget_eq_ok, finish_eq_ok, run_pure_eq_ok] at h
      obtain ⟨⟨ps, path, principal⟩, m₂, ⟨hclear, htarget⟩, _, _, ⟨rfl, rfl⟩, _, m₃, hsemi, rfl,
        rfl⟩ := h
      exact ⟨.permission effect ps path principal, rfl, hclear, m₂,
        leads_split.2 ⟨m₁, hw, htarget⟩, hsemi⟩
  · rintro ⟨c, rfl, hclear, m₂, h, hsemi⟩
    cases c with
    | present id kind =>
      obtain ⟨m₁, hw, h⟩ := leads_split.1 h
      refine ⟨.exists, m₁, hw, ?_⟩
      simp only [run_bind_eq_ok, presence_eq_ok, finish_eq_ok, run_pure_eq_ok]
      exact ⟨_, m₂, ⟨id, kind, rfl, h, fun _ => hsemi.lacks_of_mark rfl⟩, (), rest, hsemi, rfl, rfl⟩
    | absent id =>
      obtain ⟨m₁, hw, h⟩ := leads_split.1 h
      obtain ⟨m₃, hexists, hid⟩ := leads_split.1 h
      refine ⟨.not, m₁, hw, ?_⟩
      simp only [run_bind_eq_ok, keyword_eq_ok, quoted_eq_ok, finish_eq_ok, run_pure_eq_ok]
      exact ⟨(), m₃, hexists, id, m₂, hid, _, _, ⟨rfl, rfl⟩, (), rest, hsemi, rfl, rfl⟩
    | permission effect ps path principal =>
      obtain ⟨m₁, hw, h⟩ := leads_split.1 h
      refine ⟨.permission effect, m₁, hw, ?_⟩
      simp only [run_bind_eq_ok, grantTarget_eq_ok, finish_eq_ok, run_pure_eq_ok]
      exact ⟨(ps, path, principal), m₂, ⟨hclear, h⟩, _, _, ⟨rfl, rfl⟩, (), rest, hsemi, rfl, rfl⟩

/-! ## All forms -/

theorem inclusion_eq_ok {o : Origin} {s : Statement} :
    (inclusion o).run cx ts = .ok (s, rest) ↔
      ∃ target, s = .inclusion o target ∧ Leads [.str target, .mark .semi] ts rest := by
  simp only [inclusion, run_bind_eq_ok, run_pure_eq_ok, quoted_eq_ok, finish_eq_ok,
    leads_cons_cons_iff]
  constructor
  · rintro ⟨target, m₁, htarget, _, m₂, hsemi, rfl, rfl⟩
    exact ⟨target, rfl, m₁, htarget, hsemi⟩
  · rintro ⟨target, rfl, m₁, htarget, hsemi⟩
    exact ⟨target, m₁, htarget, (), _, hsemi, rfl, rfl⟩

theorem definition_eq_ok {o : Origin} {s : Statement} :
    (definition o).run cx ts = .ok (s, rest) ↔ ∃ flag value, s = .define o flag value ∧
      Leads [.word flag, .mark .eq, .spelled (if value then "true" else "false"), .mark .semi] ts
        rest := by
  simp only [definition, run_bind_eq_ok, run_pure_eq_ok, word_eq_ok, mark_eq_ok, truth_eq_ok,
    finish_eq_ok, leads_cons_cons_iff]
  constructor
  · rintro ⟨flag, m₁, hflag, _, m₂, heq, value, m₃, hvalue, _, m₄, hsemi, rfl, rfl⟩
    exact ⟨flag, value, rfl, m₁, hflag, m₂, heq, m₃, hvalue, hsemi⟩
  · rintro ⟨flag, value, rfl, m₁, hflag, m₂, heq, m₃, hvalue, hsemi⟩
    exact ⟨flag, m₁, hflag, (), m₂, heq, value, m₃, hvalue, (), _, hsemi, rfl, rfl⟩

/-! ## The form that a keyword selects -/

/-- What the reader of a keyword gives is what is written after the keyword. -/
theorem of_simple_eq_ok {o : Origin} {kw : Keyword} {s : Statement}
    (h : (simple o kw).run cx ts = .ok (s, rest)) :
    s.Clear ∧ ∃ p, s.phrase? = some (kw, p) ∧ Leads p ts rest := by
  cases kw with
  | create =>
    obtain ⟨d, rfl, hd⟩ := run_map_eq_ok.1 h
    obtain ⟨kind, id, path, rfl, hp⟩ := creation_eq_ok.1 hd
    exact ⟨trivial, _, rfl, hp⟩
  | add | remove =>
    obtain ⟨d, rfl, hd⟩ := run_map_eq_ok.1 h
    obtain ⟨member, group, rfl, hp⟩ := membership_eq_ok.1 hd
    exact ⟨trivial, _, rfl, hp⟩
  | allow | deny =>
    obtain ⟨d, rfl, hd⟩ := run_map_eq_ok.1 h
    obtain ⟨ps, path, principal, rs, rfl, hclear, hp⟩ := permission_eq_ok.1 hd
    exact ⟨hclear, _, rfl, hp⟩
  | set =>
    obtain ⟨d, rfl, hd⟩ := run_map_eq_ok.1 h
    obtain ⟨path, key, value, rfl, hp⟩ := propertySetting_eq_ok.1 hd
    exact ⟨trivial, _, rfl, hp⟩
  | copy | move =>
    obtain ⟨d, rfl, hd⟩ := run_map_eq_ok.1 h
    obtain ⟨source, target, rfl, hp⟩ := transfer_eq_ok.1 hd
    exact ⟨trivial, _, rfl, hp⟩
  | delete =>
    obtain ⟨d, rfl, hd⟩ := run_map_eq_ok.1 h
    obtain ⟨path, rfl, hp⟩ := deletion_eq_ok.1 hd
    exact ⟨trivial, _, rfl, hp⟩
  | purge =>
    obtain ⟨d, rfl, hd⟩ := run_map_eq_ok.1 h
    obtain ⟨path, principal, rfl, hp⟩ := purging_eq_ok.1 hd
    exact ⟨trivial, _, rfl, hp⟩
  | check =>
    obtain ⟨d, rfl, hd⟩ := run_map_eq_ok.1 h
    obtain ⟨c, rfl, hclear, hp⟩ := verification_eq_ok.1 hd
    exact ⟨hclear, _, rfl, hp⟩
  | inclusion =>
    obtain ⟨target, rfl, hp⟩ := inclusion_eq_ok.1 h
    exact ⟨trivial, _, rfl, hp⟩
  | define =>
    obtain ⟨flag, value, rfl, hp⟩ := definition_eq_ok.1 h
    exact ⟨trivial, _, rfl, hp⟩

/-- What is written after a keyword is read, at any position. -/
theorem exists_simple_eq_ok {o : Origin} {kw : Keyword} {s : Statement} {p : Phrase}
    (hclear : s.Clear) (hp : s.phrase? = some (kw, p)) (h : Leads p ts rest) :
    ∃ s', (simple o kw).run cx ts = .ok (s', rest) ∧ s'.unplaced = s.unplaced := by
  cases s with
  | cond => cases hp
  | inclusion _ target =>
    cases hp
    exact ⟨_, inclusion_eq_ok.2 ⟨target, rfl, h⟩, rfl⟩
  | define _ flag value =>
    cases hp
    exact ⟨_, definition_eq_ok.2 ⟨flag, value, rfl, h⟩, rfl⟩
  | directive _ d =>
    refine ⟨.directive o d, ?_, rfl⟩
    cases d with
    | create kind id path =>
      cases hp
      exact run_map_eq_ok.2 ⟨_, rfl, creation_eq_ok.2 ⟨kind, id, path, rfl, h⟩⟩
    | addMember member group | removeMember member group =>
      cases hp
      exact run_map_eq_ok.2 ⟨_, rfl, membership_eq_ok.2 ⟨member, group, rfl, h⟩⟩
    | permission effect ps path principal rs =>
      cases effect <;> cases hp <;>
        exact run_map_eq_ok.2 ⟨_, rfl, permission_eq_ok.2 ⟨ps, path, principal, rs, rfl, hclear, h⟩⟩
    | setProperty path key value =>
      cases hp
      exact run_map_eq_ok.2 ⟨_, rfl, propertySetting_eq_ok.2 ⟨path, key, value, rfl, h⟩⟩
    | copy source target | move source target =>
      cases hp
      exact run_map_eq_ok.2 ⟨_, rfl, transfer_eq_ok.2 ⟨source, target, rfl, h⟩⟩
    | delete path =>
      cases hp
      exact run_map_eq_ok.2 ⟨_, rfl, deletion_eq_ok.2 ⟨path, rfl, h⟩⟩
    | purge path principal =>
      cases hp
      exact run_map_eq_ok.2 ⟨_, rfl, purging_eq_ok.2 ⟨path, principal, rfl, h⟩⟩
    | check c =>
      cases hp
      exact run_map_eq_ok.2 ⟨_, rfl, verification_eq_ok.2 ⟨c, rfl, hclear, h⟩⟩

end Grammar

end Entitle
