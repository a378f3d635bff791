import Entitle.Proofs.Asking
import Entitle.Proofs.Lines

/-!
# History files on a disk

A history file on a host where anything may fail: a refused request has no effect, but an append
that fails may have added any part of its line. Only cutting the file back always works. On such a
host a journal and its file never part: opening the file gives the journal, whatever became of the
records that it was asked to keep.

## Main definitions

* `Dialogue.Ends`: a program may end so, from a state that is served in a given way.
* `Host.Serves`, `Host.Succeeds`: what a host may reply about one file, and what it replies when
  everything succeeds.
* `Journal.opened`: what opening a file with a content gives.
* `Journal.Current`: a journal is what opening its file gives.
* `Journal.Course`: records are kept one after the other.

## Main statements

* `Journal.ends_load_iff`: how opening a file ends.
* `Journal.Current.append`: keeping a record leaves journal and file together.
* `Journal.Course.current`: so do many.
* `Journal.Course.content`: what is in a file that was fresh.
-/
namespace Entitle

/-! ## Programs on a state -/

namespace Dialogue

variable {σ Op α β : Type} {Reply : Op → Type}

/-- A program that begins with a state may end with a result and another state, if the requests are
served in the given way. -/
inductive Ends (serves : σ → (op : Op) → Reply op → σ → Prop) :
    σ → Dialogue Op Reply α → α → σ → Prop
  | done (s : σ) (a : α) : Ends serves s (done a) a s
  | ask {s s' t : σ} {op : Op} {next : Reply op → Dialogue Op Reply α} {reply : Reply op} {a : α}
    (h : serves s op reply s') (hrest : Ends serves s' (next reply) a t) :
    Ends serves s (ask op next) a t

variable {serves : σ → (op : Op) → Reply op → σ → Prop} {s t : σ}

theorem ends_done_iff {a b : α} :
    Ends serves s (done a : Dialogue Op Reply α) b t ↔ b = a ∧ t = s := by
  constructor
  · rintro ⟨⟩
    exact ⟨rfl, rfl⟩
  · rintro ⟨rfl, rfl⟩
    exact .done t b

theorem ends_request_iff {op : Op} {reply : Reply op} :
    Ends serves s (request op) reply t ↔ serves s op reply t := by
  constructor
  · rintro (_ | ⟨h, hrest⟩)
    cases hrest
    exact h
  · exact fun h => .ask h (.done _ _)

theorem Ends.mono {serves' : σ → (op : Op) → Reply op → σ → Prop} {p : Dialogue Op Reply α} {a : α}
    (h : Ends serves s p a t)
    (hserves : ∀ {s op reply s'}, serves s op reply s' → serves' s op reply s') :
    Ends serves' s p a t := by
  induction h with
  | done s a => exact .done s a
  | ask h _ ih => exact .ask (hserves h) ih

/-- A sequence ends as its second part does that begins where the first one ends. -/
theorem ends_bind_iff {p : Dialogue Op Reply α} {f : α → Dialogue Op Reply β} {b : β} :
    Ends serves s (p >>= f) b t ↔
      ∃ a s', Ends serves s p a s' ∧ Ends serves s' (f a) b t := by
  induction p generalizing s with
  | done a =>
    simp only [done_bind, ends_done_iff]
    constructor
    · exact fun h => ⟨a, s, ⟨rfl, rfl⟩, h⟩
    · rintro ⟨_, _, ⟨rfl, rfl⟩, h⟩
      exact h
  | ask op next ih =>
    constructor
    · rintro (_ | ⟨h, hrest⟩)
      obtain ⟨a, s', hp, hf⟩ := (ih _).1 hrest
      exact ⟨a, s', .ask h hp, hf⟩
    · rintro ⟨a, s', _ | ⟨h, hrest⟩, hf⟩
      exact .ask h ((ih _).2 ⟨a, s', hrest, hf⟩)

end Dialogue

open Dialogue

/-! ## A file on a host -/

/-- What a host may reply about one file, which has a content or is missing, and the file
afterwards. -/
inductive Host.Serves (file : String) :
    Option ByteArray → (q : Host.Request) → Host.Reply q → Option ByteArray → Prop
  | read (content : ByteArray) :
    Serves file (some content) (.read file) (.ok content) (some content)
  | missing : Serves file none (.read file) (.error .missing) none
  | directory (c : Option ByteArray) (name : String) (reply : Except FileError Unit) :
    Serves file c (.makeDirectory name) reply c
  | opened (c : Option ByteArray) :
    Serves file c (.openAppend file) (.ok ()) (some (c.getD .empty))
  | notOpened (c : Option ByteArray) (e : FileError) :
    Serves file c (.openAppend file) (.error e) c
  | length (content : ByteArray) :
    Serves file (some content) (.length file) (.ok content.size) (some content)
  | noLength (content : ByteArray) (e : FileError) :
    Serves file (some content) (.length file) (.error e) (some content)
  | cut (content : ByteArray) (n : Nat) (h : n ≤ content.size) :
    Serves file (some content) (.setLength file n) (.ok ()) (some (content.extract 0 n))
  | appended (content more : ByteArray) :
    Serves file (some content) (.append file more) (.ok ()) (some (content ++ more))
  /-- A part of what was to be appended may have been. -/
  | notAppended (content more : ByteArray) (n : Nat) (e : FileError) :
    Serves file (some content) (.append file more) (.error e) (some (content ++ more.extract 0 n))
  | synced (content : ByteArray) :
    Serves file (some content) (.sync file) (.ok ()) (some content)
  | notSynced (content : ByteArray) (e : FileError) :
    Serves file (some content) (.sync file) (.error e) (some content)

/-- What a host replies about one file when everything succeeds, and the file afterwards. -/
inductive Host.Succeeds (file : String) :
    Option ByteArray → (q : Host.Request) → Host.Reply q → Option ByteArray → Prop
  | read (content : ByteArray) :
    Succeeds file (some content) (.read file) (.ok content) (some content)
  | missing : Succeeds file none (.read file) (.error .missing) none
  | directory (c : Option ByteArray) {name : String} (h : FileName.directory? file = some name) :
    Succeeds file c (.makeDirectory name) (.ok ()) c
  | opened (c : Option ByteArray) :
    Succeeds file c (.openAppend file) (.ok ()) (some (c.getD .empty))
  | length (content : ByteArray) :
    Succeeds file (some content) (.length file) (.ok content.size) (some content)
  | cut (content : ByteArray) (n : Nat) (h : n ≤ content.size) :
    Succeeds file (some content) (.setLength file n) (.ok ()) (some (content.extract 0 n))
  | appended (content more : ByteArray) :
    Succeeds file (some content) (.append file more) (.ok ()) (some (content ++ more))
  | synced (content : ByteArray) :
    Succeeds file (some content) (.sync file) (.ok ()) (some content)

/-- Everything may succeed. -/
theorem Host.Succeeds.serves {file : String} {c c' : Option ByteArray} {q : Host.Request}
    {reply : Host.Reply q} (h : Host.Succeeds file c q reply c') :
    Host.Serves file c q reply c' := by
  cases h with
  | read content => exact .read content
  | missing => exact .missing
  | directory _ _ => exact .directory ..
  | opened _ => exact .opened c
  | length content => exact .length content
  | cut content n h => exact .cut content n h
  | appended content more => exact .appended content more
  | synced content => exact .synced content

private theorem Host.textOf_eq_ok_iff {content : ByteArray} {text : String} :
    textOf content = .ok text ↔ content = text.toUTF8 := by
  rw [textOf, String.fromUTF8?, String.toUTF8_eq_toByteArray]
  by_cases hvalid : content.IsValidUTF8
  · have hbytes : (String.fromUTF8 content hvalid).toByteArray = content := rfl
    rw [dif_pos hvalid, Except.ok.injEq, ← String.toByteArray_inj, hbytes]
  · rw [dif_neg hvalid]
    refine iff_of_false (by simp) ?_
    rintro rfl
    exact hvalid text.isValidUTF8

theorem toUTF8_append (a b : String) : (a ++ b).toUTF8 = a.toUTF8 ++ b.toUTF8 := by simp

/-- The text of a file that has a content or is missing. -/
def Host.textIn : Option ByteArray → Except FileError String
  | none => .error .missing
  | some content => textOf content

theorem Host.textIn_eq_ok_iff {c : Option ByteArray} {text : String} :
    textIn c = .ok text ↔ c = some text.toUTF8 := by
  cases c with
  | none => simp [textIn]
  | some content => rw [textIn, textOf_eq_ok_iff, Option.some.injEq]

namespace Journal

variable {file : String} {c c' : Option ByteArray}

/-! ## Opening -/

/-- What opening a file gives, by what is read of it. -/
def ofRead (file : String) : Except FileError String → Except StoreError Journal
  | .ok text => ofText file text
  | .error e => if e.isMissing then .ok ⟨file, [], none⟩ else .error (.host e)

theorem load_eq (file : String) :
    load file = Host.readText file >>= fun read => pure (ofRead file read) := by
  refine congrArg (Host.readText file >>= ·) (funext fun read => ?_)
  cases read with
  | ok text => rfl
  | error e => exact (apply_ite pure _ _ _).symm

/-- What opening a file gives that has a content or is missing. -/
def opened (file : String) (c : Option ByteArray) : Except StoreError Journal :=
  ofRead file (Host.textIn c)

private theorem opened_none (file : String) : opened file none = .ok ⟨file, [], none⟩ := rfl

theorem opened_text (file text : String) : opened file (some text.toUTF8) = ofText file text := by
  rw [opened, Host.textIn_eq_ok_iff.2 rfl]
  rfl

/-- A file that is no text cannot be opened. -/
theorem opened_of_not_isValidUTF8 (file : String) {content : ByteArray}
    (h : ¬ content.IsValidUTF8) : opened file (some content) = .error (.host .notText) := by
  rw [opened, Host.textIn, Host.textOf, String.fromUTF8?, dif_neg h]
  rfl

theorem ends_readText_ok (file : String) (c : Option ByteArray) :
    Ends (Host.Succeeds file) c (Host.readText file) (Host.textIn c) c := by
  rw [Host.readText, ends_bind_iff]
  cases c with
  | none => exact ⟨_, _, ends_request_iff.2 .missing, .done ..⟩
  | some content => exact ⟨_, _, ends_request_iff.2 (.read content), .done ..⟩

theorem ends_load_ok (file : String) (c : Option ByteArray) :
    Ends (Host.Succeeds file) c (load file) (opened file c) c := by
  rw [load_eq, ends_bind_iff]
  exact ⟨_, _, ends_readText_ok file c, .done ..⟩

theorem ends_readText_iff {result : Except FileError String} :
    Ends (Host.Serves file) c (Host.readText file) result c' ↔
      result = Host.textIn c ∧ c' = c := by
  constructor
  · intro h
    rw [Host.readText] at h
    obtain ⟨reply, s, hread, hrest⟩ := ends_bind_iff.1 h
    cases ends_request_iff.1 hread with
    | read content => exact ends_done_iff.1 hrest
    | missing => exact ends_done_iff.1 hrest
  · rintro ⟨rfl, rfl⟩
    exact (ends_readText_ok file c').mono Host.Succeeds.serves

/-- A file that is there or missing is opened, and not changed. -/
theorem ends_load_iff {result : Except StoreError Journal} :
    Ends (Host.Serves file) c (load file) result c' ↔ result = opened file c ∧ c' = c := by
  constructor
  · intro h
    rw [load_eq] at h
    obtain ⟨read, s, hread, hrest⟩ := ends_bind_iff.1 h
    obtain ⟨rfl, rfl⟩ := ends_readText_iff.1 hread
    exact ends_done_iff.1 hrest
  · rintro ⟨rfl, rfl⟩
    exact (ends_load_ok file c').mono Host.Succeeds.serves

/-- A journal is what opening its file gives. -/
def Current (c : Option ByteArray) (j : Journal) : Prop :=
  opened j.file c = .ok j

/-! ## Steps of an append -/

section

variable {serves : Option ByteArray → (q : Host.Request) → Host.Reply q → Option ByteArray → Prop}

/-- A sequence of steps ends with the second one, or with the error of the first one. -/
theorem ends_run_bind {α β : Type} {x : Step α} {f : α → Step β} {result : Except StoreError β} :
    Ends serves c (x >>= f).run result c' ↔
      (∃ a s, Ends serves c x.run (.ok a) s ∧
        Ends serves s (f a).run result c') ∨
      ∃ e, Ends serves c x.run (.error e) c' ∧ result = .error e := by
  refine ends_bind_iff.trans ?_
  constructor
  · rintro ⟨first, s, hx, hf⟩
    cases first with
    | ok a => exact .inl ⟨a, s, hx, hf⟩
    | error e =>
      obtain ⟨rfl, rfl⟩ := ends_done_iff.1 hf
      exact .inr ⟨e, hx, rfl⟩
  · rintro (⟨a, s, hx, hf⟩ | ⟨e, hx, rfl⟩)
    · exact ⟨.ok a, s, hx, hf⟩
    · exact ⟨.error e, c', hx, .done ..⟩

theorem ends_step_ok {α : Type} {r : Hosted (Except FileError α)} {a : α} :
    Ends serves c (step r).run (.ok a) c' ↔ Ends serves c r (.ok a) c' := by
  refine ends_bind_iff.trans ⟨?_, fun h => ⟨_, _, h, .done ..⟩⟩
  rintro ⟨reply, s, hr, hrest⟩
  cases reply with
  | ok a =>
    obtain ⟨h, rfl⟩ := ends_done_iff.1 hrest
    cases h
    exact hr
  | error e => cases (ends_done_iff.1 hrest).1

theorem ends_step_error {α : Type} {r : Hosted (Except FileError α)} {e : StoreError}
    (h : Ends serves c (step r).run (.error e) c') :
    ∃ e, Ends serves c r (.error e) c' := by
  obtain ⟨reply, s, hr, hrest⟩ := ends_bind_iff.1 h
  cases reply with
  | ok a => cases (ends_done_iff.1 hrest).1
  | error e =>
    obtain ⟨-, rfl⟩ := ends_done_iff.1 hrest
    exact ⟨e, hr⟩

end

/-- Opening the file for an append creates it if it is missing. -/
theorem ends_prepare {result : Except StoreError Unit}
    (h : Ends (Host.Serves file) c (prepare file).run result c') :
    (result = .ok () ∧ c' = some (c.getD .empty)) ∨ (∃ e, result = .error e) ∧ c' = c := by
  have hopen : ∀ {result : Except StoreError Unit},
      Ends (Host.Serves file) c (step (Host.ask (.openAppend file))).run result c' →
      (result = .ok () ∧ c' = some (c.getD .empty)) ∨ (∃ e, result = .error e) ∧ c' = c := by
    intro result h
    cases result with
    | ok _ =>
      cases ends_request_iff.1 (ends_step_ok.1 h)
      exact .inl ⟨rfl, rfl⟩
    | error e =>
      obtain ⟨_, h⟩ := ends_step_error h
      cases ends_request_iff.1 h
      exact .inr ⟨⟨e, rfl⟩, rfl⟩
  rw [prepare] at h
  split at h
  · exact hopen h
  · obtain ⟨_, s, hdirectory, hrest⟩ | ⟨e, hdirectory, rfl⟩ := ends_run_bind.1 h
    · cases ends_request_iff.1 (ends_step_ok.1 hdirectory)
      exact hopen hrest
    · obtain ⟨_, hdirectory⟩ := ends_step_error hdirectory
      cases ends_request_iff.1 hdirectory
      exact .inr ⟨⟨e, rfl⟩, rfl⟩

/-- An unfinished line is cut off. -/
theorem ends_cutTorn {j : Journal} {content : ByteArray} {result : Except StoreError Journal}
    (h : Ends (Host.Serves j.file) (some content) j.cutTorn.run result c') :
    result = .ok { j with tornAt := none } ∧
      c' = some (j.tornAt.elim content (content.extract 0)) := by
  obtain ⟨file, records, tornAt⟩ := j
  cases tornAt with
  | none => exact (ends_done_iff.1 h).imp id id
  | some n =>
    obtain ⟨_, s, hcut, hrest⟩ | ⟨e, hcut, -⟩ := ends_run_bind.1 h
    · obtain ⟨rfl, rfl⟩ := ends_done_iff.1 hrest
      cases ends_request_iff.1 (ends_step_ok.1 hcut)
      exact ⟨rfl, rfl⟩
    · obtain ⟨_, hcut⟩ := ends_step_error hcut
      cases ends_request_iff.1 hcut

/-- A line is appended, or the file is as it was before. -/
theorem ends_appendLine {content : ByteArray} {line : String} {result : Except StoreError Unit}
    (h : Ends (Host.Serves file) (some content) (appendLine file line).run result c') :
    (result = .ok () ∧ c' = some (content ++ line.toUTF8)) ∨
      (∃ e, result = .error e) ∧ c' = some content := by
  rw [appendLine] at h
  obtain ⟨before, s, hlength, hrest⟩ | ⟨e, hlength, rfl⟩ := ends_run_bind.1 h
  · cases ends_request_iff.1 (ends_step_ok.1 hlength)
    obtain ⟨written, s, hwritten, hrest⟩ := ends_bind_iff.1 hrest
    obtain ⟨reply, s', happend, hsync⟩ := ends_bind_iff.1 hwritten
    have hback : ∀ (more : ByteArray) (e : FileError),
        Ends (Host.Serves file) (some (content ++ more)) (do
          let _ ← Host.ask (.setLength file content.size)
          pure (.error (.host e)) : Hosted (Except StoreError Unit)) result c' →
        (∃ e, result = .error e) ∧ c' = some content := by
      intro more e h
      obtain ⟨_, s, hcut, hrest⟩ := ends_bind_iff.1 h
      obtain ⟨rfl, rfl⟩ := ends_done_iff.1 hrest
      cases ends_request_iff.1 hcut
      exact ⟨⟨_, rfl⟩, congrArg some (ByteArray.extract_append_eq_left rfl)⟩
    cases ends_request_iff.1 happend with
    | appended =>
      cases ends_request_iff.1 hsync with
      | synced => exact .inl (ends_done_iff.1 hrest)
      | notSynced _ e => exact .inr (hback _ e hrest)
    | notAppended _ _ n e =>
      obtain ⟨rfl, rfl⟩ := ends_done_iff.1 hsync
      exact .inr (hback _ e hrest)
  · obtain ⟨_, hlength⟩ := ends_step_error hlength
    cases ends_request_iff.1 hlength
    exact .inr ⟨⟨e, rfl⟩, rfl⟩

/-! ## Keeping a record -/

/-- The text of a file that is open for an append. -/
theorem Current.text {j : Journal} (h : Current c j) :
    ∃ text : String, c.getD .empty = text.toUTF8 ∧ ofText j.file text = .ok j := by
  cases c with
  | none =>
    rw [Current, opened_none, Except.ok.injEq] at h
    rw [← h]
    exact ⟨"", rfl, rfl⟩
  | some content =>
    by_cases hvalid : content.IsValidUTF8
    · obtain ⟨text, rfl⟩ : ∃ text : String, content = text.toUTF8 := ⟨⟨content, hvalid⟩, rfl⟩
      rw [Current, opened_text] at h
      exact ⟨text, rfl, h⟩
    · rw [Current, opened_of_not_isValidUTF8 _ hvalid] at h
      cases h

/-- What is left when the unfinished line is cut off are the complete lines. -/
theorem elim_tornAt {text : String} {j : Journal} (h : ofText file text = .ok j) :
    j.tornAt.elim text.toUTF8 (text.toUTF8.extract 0) =
      (String.ofList (completePart text.toList)).toUTF8 := by
  obtain ⟨hcomplete, htorn⟩ | htorn := tornAt_ofText h
  · rw [htorn, hcomplete]
    rfl
  · obtain ⟨tail, htext⟩ := exists_eq_completePart_append text
    rw [htorn, Option.elim_some]
    generalize String.ofList (completePart text.toList) = complete at htext ⊢
    rw [htext, toUTF8_append]
    exact ByteArray.extract_append_eq_left rfl

/-- How keeping a record ends. Either the file could not be opened, or the unfinished line was cut
off. In that case the line of the record comes after the complete lines, or nothing does. -/
theorem Current.ends_append {j j' : Journal} {r : Record} {reply : Except StoreError Record}
    {text : String} (hcontent : c.getD .empty = text.toUTF8) (htext : ofText j.file text = .ok j)
    (hends : Ends (Host.Serves j.file) c (j.append r) (reply, j') c') :
    let complete := String.ofList (completePart text.toList)
    let stored := { r with id := nextId j.records }
    (∃ e, reply = .error e ∧ j' = j ∧ c' = c) ∨
      (∃ e, reply = .error e ∧ j' = { j with tornAt := none } ∧ c' = some complete.toUTF8) ∨
      (reply = .ok stored ∧ j' = ⟨j.file, j.records ++ [stored], none⟩ ∧
        c' = some (complete ++ stored.line).toUTF8) := by
  intro complete stored
  rw [Journal.append] at hends
  split at hends
  · next e _ =>
    obtain ⟨hpair, rfl⟩ := ends_done_iff.1 hends
    exact .inl ⟨e, congrArg Prod.fst hpair, congrArg Prod.snd hpair, rfl⟩
  · obtain ⟨ready, s, hready, hrest⟩ := ends_bind_iff.1 hends
    obtain ⟨_, s', hprepare, hcut⟩ | ⟨e, hprepare, rfl⟩ := ends_run_bind.1 hready
    · obtain ⟨-, rfl⟩ | ⟨⟨e, he⟩, -⟩ := ends_prepare hprepare
      · rw [hcontent] at hcut
        obtain ⟨rfl, rfl⟩ := ends_cutTorn hcut
        rw [elim_tornAt htext] at hrest
        obtain ⟨written, s, hwritten, hrest⟩ := ends_bind_iff.1 hrest
        obtain ⟨rfl, rfl⟩ | ⟨⟨e, rfl⟩, rfl⟩ := ends_appendLine hwritten
        · obtain ⟨hpair, rfl⟩ := ends_done_iff.1 hrest
          rw [← toUTF8_append]
          exact .inr (.inr ⟨congrArg Prod.fst hpair, congrArg Prod.snd hpair, rfl⟩)
        · obtain ⟨hpair, rfl⟩ := ends_done_iff.1 hrest
          exact .inr (.inl ⟨e, congrArg Prod.fst hpair, congrArg Prod.snd hpair, rfl⟩)
      · cases he
    · obtain ⟨he, -⟩ | ⟨-, rfl⟩ := ends_prepare hprepare
      · cases he
      · obtain ⟨hpair, rfl⟩ := ends_done_iff.1 hrest
        exact .inl ⟨e, congrArg Prod.fst hpair, congrArg Prod.snd hpair, rfl⟩

theorem inWords_stored {r : Record} (hr : r.summary.InWords) (records : List Record) :
    Record.InWords { r with id := nextId records } :=
  ⟨Nat.mod_lt _ (by decide), hr⟩

/-- Whatever becomes of a record, the journal is what opening its file gives. A record that is kept
comes after the others. -/
theorem Current.append {j j' : Journal} {r : Record} {reply : Except StoreError Record}
    (h : Current c j) (hr : r.summary.InWords)
    (hends : Ends (Host.Serves j.file) c (j.append r) (reply, j') c') :
    Current c' j' ∧ j'.file = j.file ∧ j'.records = j.records ++ reply.toOption.toList := by
  obtain ⟨text, hcontent, htext⟩ := h.text
  obtain ⟨e, rfl, rfl, rfl⟩ | ⟨e, rfl, rfl, rfl⟩ | ⟨rfl, rfl, rfl⟩ :=
    Current.ends_append hcontent htext hends
  · exact ⟨h, rfl, by simp [Except.toOption]⟩
  · rw [Current, opened_text]
    exact ⟨ofText_completePart htext, rfl, by simp [Except.toOption]⟩
  · rw [Current, opened_text]
    exact ⟨ofText_append htext (inWords_stored hr _), rfl, by simp [Except.toOption]⟩

/-! ## Keeping records one after the other -/

/-- Records are given to a journal one after the other. Those that are kept are listed. -/
inductive Course (file : String) :
    Option ByteArray → Journal → List Record → Option ByteArray → Journal → Prop
  | start (c : Option ByteArray) (j : Journal) : Course file c j [] c j
  | next {c c' c'' : Option ByteArray} {j j' j'' : Journal} {kept : List Record} {r : Record}
    {reply : Except StoreError Record} (h : Course file c j kept c' j') (hr : r.summary.InWords)
    (hends : Ends (Host.Serves file) c' (j'.append r) (reply, j'') c'') :
    Course file c j (kept ++ reply.toOption.toList) c'' j''

/-- Journal and file stay together, and the records of the journal are those that it had and those
that were kept. -/
theorem Course.current {j j' : Journal} {kept : List Record} (h : Course file c j kept c' j')
    (hcurrent : Current c j) (hfile : j.file = file) :
    Current c' j' ∧ j'.file = file ∧ j'.records = j.records ++ kept := by
  induction h with
  | start => exact ⟨hcurrent, hfile, by simp⟩
  | next h hr hends ih =>
    obtain ⟨hcurrent', hfile', hrecords⟩ := ih hcurrent hfile
    rw [← hfile'] at hends
    obtain ⟨hcurrent'', hfile'', hmore⟩ := hcurrent'.append hr hends
    exact ⟨hcurrent'', hfile''.trans hfile', by rw [hmore, hrecords, List.append_assoc]⟩

/-- A file that was fresh holds the lines of the records that were kept, and nothing else. -/
theorem Course.content {j j' : Journal} {kept : List Record} (h : Course file c j kept c' j')
    (hfresh : c.getD .empty = .empty) (hj : j = ⟨file, [], none⟩) :
    c'.getD .empty = (Record.lines kept).toUTF8 ∧ j' = ⟨file, kept, none⟩ ∧
      ∀ r ∈ kept, r.InWords := by
  induction h with
  | start => exact ⟨hfresh, hj, by simp⟩
  | @next _ _ _ _ _ kept r _ h hr hends ih =>
    obtain ⟨hcontent, rfl, hwords⟩ := ih hj
    have hcomplete : completePart (Record.lines kept).toList = (Record.lines kept).toList :=
      completePart_eq_self (Record.endsLine_lines kept)
    obtain ⟨e, rfl, rfl, rfl⟩ | ⟨e, rfl, rfl, rfl⟩ | ⟨rfl, rfl, rfl⟩ :=
      Current.ends_append (j := ⟨file, kept, none⟩) hcontent (ofText_lines file hwords) hends
    · simpa [Except.toOption] using ⟨hcontent, hwords⟩
    · rw [hcomplete, String.ofList_toList]
      simpa [Except.toOption] using hwords
    · rw [hcomplete, String.ofList_toList]
      refine ⟨?_, rfl, List.forall_mem_append.2 ⟨hwords, List.forall_mem_singleton.2 ?_⟩⟩
      · simp [Except.toOption, Record.lines]
      · exact inWords_stored hr kept

end Journal

end Entitle
