import Entitle.Proofs.Keeping
import Entitle.Proofs.Remnants

/-!
# History files when everything fails

When an append fails, the file is cut back. That may fail as well, and then a part of the line stays
in the file, while the journal takes it for complete. What comes of that is decided by the next
append that reaches the file: its line comes behind the part, and if it comes there as a whole, the
file cannot be opened any more. As long as none does, everything that was kept is found again.

## Main definitions

* `Host.Falters`: what a host may reply on which anything may fail.
* `Journal.Ordeal`: records are given to a journal one after the other, and anything may fail.

## Main statements

* `Journal.ends_append_falters`: what becomes of one record.
* `Journal.Ordeal.holds_or_spoiled`: what becomes of the file.
* `Journal.Ordeal.found_again_iff`: whether the file can be opened with all that was kept.
* `Journal.Ordeal.not_opens_spoiled`: a file that cannot be opened.
-/
namespace Entitle

open Dialogue

/-! ## A host on which anything fails -/

/-- What a host may reply on which anything may fail, cutting the file back as well. -/
inductive Host.Falters (file : String) :
    Option ByteArray → (q : Host.Request) → Host.Reply q → Option ByteArray → Prop
  | serves {c c' : Option ByteArray} {q : Host.Request} {reply : Host.Reply q}
    (h : Host.Serves file c q reply c') : Falters file c q reply c'
  | notCut (content : ByteArray) (n : Nat) (e : FileError) :
    Falters file (some content) (.setLength file n) (.error e) (some content)

/-- Requests that all have a property may be served in every way in which such requests are. -/
theorem Dialogue.Ends.of_meets {σ Op α : Type} {Reply : Op → Type}
    {serves serves' : σ → (op : Op) → Reply op → σ → Prop} {P : Op → Prop} {Q : α → Prop}
    {p : Dialogue Op Reply α} {s t : σ} {a : α} (h : Ends serves s p a t) (hp : p.Meets P Q)
    (hserves : ∀ {s op reply s'}, P op → serves s op reply s' → serves' s op reply s') :
    Ends serves' s p a t := by
  induction h with
  | done s a => exact .done s a
  | ask h _ ih => exact .ask (hserves hp.1 h) (ih (hp.2 _))

/-- No file is cut back. -/
def Host.Request.CutsNothing : Host.Request → Prop
  | .setLength _ _ => False
  | _ => True

namespace Journal

variable {file : String} {c c' : Option ByteArray}

/-! ## Keeping a record -/

private theorem meets_prepare_cutsNothing (file : String) :
    (prepare file).run.Meets Host.Request.CutsNothing fun _ => True := by
  have hopen : (step (Host.ask (.openAppend file))).run.Meets Host.Request.CutsNothing
      fun _ => True := meets_step (meets_request.2 ⟨trivial, fun _ => trivial⟩)
  rw [prepare]
  split
  · exact hopen
  · exact meets_run_bind (meets_step (meets_request.2 ⟨trivial, fun _ => trivial⟩))
      (fun _ => hopen) fun _ => trivial

/-- Opening the file for an append does not cut it. -/
theorem ends_prepare_falters {result : Except StoreError Unit}
    (h : Ends (Host.Falters file) c (prepare file).run result c') :
    (result = .ok () ∧ c' = some (c.getD .empty)) ∨ (∃ e, result = .error e) ∧ c' = c := by
  refine ends_prepare (h.of_meets (meets_prepare_cutsNothing file) ?_)
  rintro s op reply s' hcuts (h | _)
  · exact h
  · exact hcuts.elim

theorem append_extract_zero (a b : ByteArray) : a ++ b.extract 0 0 = a := by
  rw [ByteArray.extract_same, ByteArray.append_empty]

/-- Of a line a part was added, if it was not added as a whole. -/
theorem ends_appendLine_falters {content : ByteArray} {line : String}
    {result : Except StoreError Unit}
    (h : Ends (Host.Falters file) (some content) (appendLine file line).run result c') :
    ∃ n, c' = some (content ++ line.toUTF8.extract 0 n) ∧
      (result = .ok () ∧ n = line.toUTF8.size ∨ ∃ e, result = .error e) := by
  have hwhole : line.toUTF8.extract 0 line.toUTF8.size = line.toUTF8 := ByteArray.extract_zero_size
  rw [appendLine] at h
  obtain ⟨before, s, hlength, hrest⟩ | ⟨e, hlength, rfl⟩ := ends_run_bind.1 h
  · obtain ⟨⟨⟩⟩ | _ := ends_request_iff.1 (ends_step_ok.1 hlength)
    obtain ⟨written, s, hwritten, hrest⟩ := ends_bind_iff.1 hrest
    obtain ⟨reply, s', happend, hsync⟩ := ends_bind_iff.1 hwritten
    have hback : ∀ (n : Nat) (e : FileError),
        Ends (Host.Falters file) (some (content ++ line.toUTF8.extract 0 n)) (do
          let _ ← Host.ask (.setLength file content.size)
          pure (.error (.host e)) : Hosted (Except StoreError Unit)) result c' →
        ∃ n, c' = some (content ++ line.toUTF8.extract 0 n) ∧ ∃ e, result = .error e := by
      intro n e h
      obtain ⟨_, s, hcut, hrest⟩ := ends_bind_iff.1 h
      obtain ⟨rfl, rfl⟩ := ends_done_iff.1 hrest
      obtain ⟨⟨⟩⟩ | _ := ends_request_iff.1 hcut
      · exact ⟨0, by rw [append_extract_zero, ByteArray.extract_append_eq_left rfl], _, rfl⟩
      · exact ⟨n, rfl, _, rfl⟩
    obtain ⟨⟨⟩⟩ | _ := ends_request_iff.1 happend
    · obtain ⟨⟨⟩⟩ | _ := ends_request_iff.1 hsync
      · obtain ⟨rfl, rfl⟩ := ends_done_iff.1 hrest
        exact ⟨_, by rw [hwhole], .inl ⟨rfl, rfl⟩⟩
      · rw [← hwhole] at hrest
        obtain ⟨n, hc', herror⟩ := hback _ _ hrest
        exact ⟨n, hc', .inr herror⟩
    · obtain ⟨rfl, rfl⟩ := ends_done_iff.1 hsync
      obtain ⟨n, hc', herror⟩ := hback _ _ hrest
      exact ⟨n, hc', .inr herror⟩
  · obtain ⟨_, hlength⟩ := ends_step_error hlength
    obtain ⟨⟨⟩⟩ | _ := ends_request_iff.1 hlength
    exact ⟨0, by rw [append_extract_zero], .inr ⟨e, rfl⟩⟩

/-- What becomes of a record that is given to a journal without an unfinished line: a part of its
line comes to the end of the file, and the whole line if the record is kept. -/
theorem ends_append_falters {j j' : Journal} {r : Record} {reply : Except StoreError Record}
    (htorn : j.tornAt = none)
    (h : Ends (Host.Falters j.file) c (j.append r) (reply, j') c') :
    let stored := { r with id := nextId j.records }
    ∃ n, c'.getD .empty = c.getD .empty ++ stored.line.toUTF8.extract 0 n ∧
      (reply = .ok stored ∧ j' = { j with records := j.records ++ [stored] } ∧
          n = stored.line.toUTF8.size ∨
        (∃ e, reply = .error e) ∧ j' = j) := by
  intro stored
  have hnone := append_extract_zero (c.getD .empty) stored.line.toUTF8
  rw [Journal.append] at h
  split at h
  · next e _ =>
    obtain ⟨hpair, rfl⟩ := ends_done_iff.1 h
    exact ⟨0, hnone.symm, .inr ⟨⟨e, congrArg Prod.fst hpair⟩, congrArg Prod.snd hpair⟩⟩
  · obtain ⟨ready, s, hready, hrest⟩ := ends_bind_iff.1 h
    obtain ⟨_, s', hprepare, hcut⟩ | ⟨e, hprepare, rfl⟩ := ends_run_bind.1 hready
    · obtain ⟨-, rfl⟩ | ⟨⟨e, he⟩, -⟩ := ends_prepare_falters hprepare
      · rw [cutTorn, htorn] at hcut
        obtain ⟨rfl, rfl⟩ := ends_done_iff.1 hcut
        obtain ⟨written, s, hwritten, hrest⟩ := ends_bind_iff.1 hrest
        obtain ⟨n, rfl, ⟨rfl, rfl⟩ | ⟨e, rfl⟩⟩ := ends_appendLine_falters hwritten
        · obtain ⟨hpair, rfl⟩ := ends_done_iff.1 hrest
          exact ⟨_, rfl, .inl ⟨congrArg Prod.fst hpair, congrArg Prod.snd hpair, rfl⟩⟩
        · obtain ⟨hpair, rfl⟩ := ends_done_iff.1 hrest
          exact ⟨n, rfl, .inr ⟨⟨e, congrArg Prod.fst hpair⟩, congrArg Prod.snd hpair⟩⟩
      · cases he
    · obtain ⟨he, -⟩ | ⟨-, rfl⟩ := ends_prepare_falters hprepare
      · cases he
      · obtain ⟨hpair, rfl⟩ := ends_done_iff.1 hrest
        exact ⟨0, hnone.symm, .inr ⟨⟨e, congrArg Prod.fst hpair⟩, congrArg Prod.snd hpair⟩⟩

/-! ## Many records -/

/-- A record that was given to a journal, with the file before and after it. -/
structure Trial where
  reply : Except StoreError Record
  before : ByteArray
  after : ByteArray

/-- Records are given one after the other to a journal whose file was missing at first, and anything
may fail. -/
inductive Ordeal (file : String) : List Trial → Option ByteArray → Journal → Prop
  | start : Ordeal file [] none ⟨file, [], none⟩
  | next {ts : List Trial} {c c' : Option ByteArray} {j j' : Journal} {r : Record}
    {reply : Except StoreError Record} (h : Ordeal file ts c j) (hr : r.summary.InWords)
    (hends : Ends (Host.Falters file) c (j.append r) (reply, j') c') :
    Ordeal file (ts ++ [⟨reply, c.getD .empty, c'.getD .empty⟩]) c' j'

/-- What becomes of the file of a journal. As long as an unfinished line stays unfinished, the file
holds all records that were kept. If it does not, the file is spoiled. -/
theorem Ordeal.holds_or_spoiled {ts : List Trial} {j : Journal} (h : Ordeal file ts c j) :
    (j.file = file ∧ j.tornAt = none) ∧
    (((∀ t ∈ ts, Unfinished t.before → Unfinished t.after) ∧
        ∃ records, Holds (c.getD .empty) records ∧
          ∀ t ∈ ts, ∀ r, t.reply = .ok r → r ∈ records) ∨
      (∃ t ∈ ts, Unfinished t.before ∧ ¬ Unfinished t.after) ∧ Spoiled (c.getD .empty)) := by
  induction h with
  | start =>
    refine ⟨⟨rfl, rfl⟩, .inl ⟨by simp, [], ⟨by simp, .empty, .empty, ?_⟩, by simp⟩⟩
    rw [ByteArray.append_empty]
    rfl
  | @next ts c c' j j' r reply h hr hends ih =>
    obtain ⟨⟨rfl, htorn⟩, ih⟩ := ih
    have hwords := inWords_stored hr j.records
    obtain ⟨n, hcontent, hreply⟩ := ends_append_falters htorn hends
    have hjournal : j'.file = j.file ∧ j'.tornAt = none := by
      obtain ⟨-, rfl, -⟩ | ⟨-, rfl⟩ := hreply
      · exact ⟨rfl, htorn⟩
      · exact ⟨rfl, htorn⟩
    refine ⟨hjournal, ?_⟩
    rw [hcontent]
    obtain ⟨hfinished, records, hholds, hkept⟩ | ⟨⟨t, ht, hfinished⟩, hspoiled⟩ := ih
    · obtain ⟨hstays, more, hholds', hmore⟩ | ⟨hfinished', hspoiled⟩ :=
        hholds.append_extract hwords n
      · refine .inl ⟨List.forall_mem_append.2 ⟨hfinished, List.forall_mem_singleton.2 hstays⟩,
          _, hholds', List.forall_mem_append.2 ⟨fun t ht r hr => ?_, ?_⟩⟩
        · exact List.mem_append_left _ (hkept t ht r hr)
        · refine List.forall_mem_singleton.2 fun r' hr' => ?_
          obtain ⟨rfl, -, hn⟩ | ⟨⟨e, rfl⟩, -⟩ := hreply
          · cases hr'
            rw [hmore hn]
            exact List.mem_append_right _ (List.mem_singleton_self _)
          · cases hr'
      · exact .inr ⟨⟨_, List.mem_append_right _ (List.mem_singleton_self _), hfinished'⟩, hspoiled⟩
    · exact .inr ⟨⟨t, List.mem_append_left _ ht, hfinished⟩, hspoiled.append _⟩

/-! ## Opening the file -/

private theorem opened_getD (file : String) (c : Option ByteArray) :
    opened file (some (c.getD .empty)) = opened file c := by
  cases c with
  | none => exact opened_text file ""
  | some content => rfl

/-- What becomes of the records whatever fails. Records are given one after the other to a journal
whose file was missing at first. Its file can be opened, and all records are in it that were kept,
exactly if an unfinished line was never finished, and the file is a text at the end. -/
theorem Ordeal.found_again_iff {ts : List Trial} {j : Journal} (h : Ordeal file ts c j) :
    (∃ j', Opens file c j' ∧ ∀ t ∈ ts, ∀ r, t.reply = .ok r → r ∈ j'.records) ↔
      (∀ t ∈ ts, Unfinished t.before → Unfinished t.after) ∧ (c.getD .empty).IsValidUTF8 := by
  constructor
  · rintro ⟨j', hopens, -⟩
    rw [Journal.opens_iff, ← opened_getD] at hopens
    refine ⟨?_, ?_⟩
    · obtain ⟨-, ⟨hfinished, -⟩ | ⟨-, hspoiled⟩⟩ := h.holds_or_spoiled
      · exact hfinished
      · exact absurd hopens (hspoiled.opened_ne file j')
    · by_contra hvalid
      rw [opened_of_not_isValidUTF8 file hvalid] at hopens
      cases hopens
  · rintro ⟨hfinished, hvalid⟩
    obtain ⟨-, ⟨-, records, hholds, hkept⟩ | ⟨⟨t, ht, hbefore, hafter⟩, -⟩⟩ := h.holds_or_spoiled
    · obtain ⟨tornAt, hopened⟩ := hholds.exists_opened hvalid file
      rw [opened_getD] at hopened
      exact ⟨_, Journal.opens_iff.2 hopened, hkept⟩
    · exact absurd (hfinished t ht hbefore) hafter

/-! ## Runs -/

/-- A write may stop within the line, and then the file may stay as it is. -/
theorem ends_appendLine_left (content : ByteArray) (line : String) (n : Nat) (e : FileError) :
    Ends (Host.Falters file) (some content) (appendLine file line).run (.error (.host e))
      (some (content ++ line.toUTF8.extract 0 n)) := by
  have hpart : Ends (Host.Falters file) (some content) (Host.ask (.append file line.toUTF8))
      (.error e) (some (content ++ line.toUTF8.extract 0 n)) :=
    ends_request_iff.2 (.serves (.notAppended content _ n e))
  have hlength : Ends (Host.Falters file) (some content) (Host.ask (.length file))
      (.ok content.size) (some content) := ends_request_iff.2 (.serves (.length content))
  refine ends_run_bind.2 (.inl ⟨content.size, _, ends_step_ok.2 hlength, ?_⟩)
  exact ends_bind_iff.2 ⟨.error e, _, ends_bind_iff.2 ⟨.error e, _, hpart, .done ..⟩,
    ends_bind_iff.2 ⟨_, _, ends_request_iff.2 (.notCut _ content.size e), .done ..⟩⟩

namespace Ordeal

variable {ts : List Trial} {records : List Record} (h : Ordeal file ts c ⟨file, records, none⟩)
  {r : Record} (hr : r.summary.InWords) (hnew : History.duplicate? records r = none)
include h hr hnew

/-- The record is kept. -/
theorem keep : let stored := { r with id := nextId records }
    let after := c.getD .empty ++ stored.line.toUTF8
    Ordeal file (ts ++ [⟨.ok stored, c.getD .empty, after⟩]) (some after)
      ⟨file, records ++ [stored], none⟩ := by
  intro stored after
  have hline : Ends (Host.Falters file) (some (c.getD .empty)) (appendLine file stored.line).run
      (.ok ()) (some after) := (ends_appendLine_ok _ _).mono fun h => .serves h.serves
  exact h.next hr (ends_append_of_fits (fun h => .serves h.serves) (fits_of_tornAt rfl) hnew hline)

/-- Some bytes of its line are left. -/
theorem leave (n : Nat) (e : FileError) : let stored := { r with id := nextId records }
    let after := c.getD .empty ++ stored.line.toUTF8.extract 0 n
    Ordeal file (ts ++ [⟨.error (.host e), c.getD .empty, after⟩]) (some after)
      ⟨file, records, none⟩ := by
  intro stored after
  have hline : Ends (Host.Falters file) (some (c.getD .empty)) (appendLine file stored.line).run
      (.error (.host e)) (some after) := ends_appendLine_left _ _ n e
  exact h.next hr (ends_append_of_fits (fun h => .serves h.serves) (fits_of_tornAt rfl) hnew hline)

end Ordeal

/-- What is left of the line of a second record after 13 bytes. -/
def leftOver : String :=
  "\x7b\"id\":2,\"iden"

private theorem extract_line_idleRun :
    (idleRun 2 "b").line.toUTF8.extract 0 13 = leftOver.toUTF8 := by
  decide +kernel

theorem inWords_idleRun (id : Nat) (identity : String) : (idleRun id identity).summary.InWords :=
  show (⟨.success, 0, 0, 0, 0, false⟩ : Summary).InWords by decide

/-- A record is kept, and 13 bytes of the next one are left behind it. -/
theorem ordeal_leftOver (e : FileError) :
    let line := (idleRun 1 "a").line.toUTF8
    Ordeal "h" [⟨.ok (idleRun 1 "a"), .empty, line⟩,
        ⟨.error (.host e), line, line ++ leftOver.toUTF8⟩] (some (line ++ leftOver.toUTF8))
      ⟨"h", [idleRun 1 "a"], none⟩ := by
  intro line
  have hkept : Ordeal "h" ([] ++ [⟨.ok (idleRun 1 "a"), .empty, .empty ++ line⟩])
      (some (.empty ++ line)) ⟨"h", [] ++ [idleRun 1 "a"], none⟩ :=
    Ordeal.start.keep (inWords_idleRun 0 "a") rfl
  rw [ByteArray.empty_append] at hkept
  have hleft := hkept.leave (inWords_idleRun 0 "b") rfl 13 e
  rw [← extract_line_idleRun]
  exact hleft

/-- With the beginning of a line behind the record that was kept, the file is opened. -/
theorem Ordeal.found_again_leftOver :
    let line := (idleRun 1 "a").line.toUTF8
    ∃ ts j, Ordeal "h" ts (some (line ++ leftOver.toUTF8)) j ∧
      ∃ j', Opens "h" (some (line ++ leftOver.toUTF8)) j' ∧ idleRun 1 "a" ∈ j'.records := by
  intro line
  have hordeal := ordeal_leftOver (.host 28 "No space left on device")
  have hline : ¬ Unfinished line := by
    have h := not_unfinished_append_line .empty (idleRun 1 "a")
    rwa [ByteArray.empty_append] at h
  have hempty : ¬ Unfinished .empty := not_unfinished_lines []
  have hvalid : (line ++ leftOver.toUTF8).IsValidUTF8 :=
    ((idleRun 1 "a").line ++ leftOver).isValidUTF8
  obtain ⟨j', hopens, hkept⟩ := hordeal.found_again_iff.2
    ⟨List.forall_mem_cons.2 ⟨fun h => absurd h hempty,
      List.forall_mem_singleton.2 fun h => absurd h hline⟩, hvalid⟩
  exact ⟨_, _, hordeal, j', hopens, hkept _ List.mem_cons_self _ rfl⟩

/-- Once another line has come behind the beginning, the file is not opened any more, and what was
kept is lost. -/
theorem Ordeal.not_opens_spoiled :
    let line := (idleRun 1 "a").line.toUTF8
    let content := line ++ leftOver.toUTF8 ++ (idleRun 2 "b").line.toUTF8
    ∃ ts j, Ordeal "h" ts (some content) j ∧ (∃ t ∈ ts, t.reply = .ok (idleRun 2 "b")) ∧
      ∀ j', ¬ Opens "h" (some content) j' := by
  intro line content
  have hleft := ordeal_leftOver (.host 28 "No space left on device")
  have hkept : Ordeal "h" (_ ++ [⟨.ok (idleRun 2 "b"), line ++ leftOver.toUTF8, content⟩])
      (some content) ⟨"h", [idleRun 1 "a"] ++ [idleRun 2 "b"], none⟩ :=
    hleft.keep (inWords_idleRun 0 "b") rfl
  refine ⟨_, _, hkept, ⟨_, List.mem_append_right _ (List.mem_singleton_self _), rfl⟩,
    fun j' hopens => ?_⟩
  have hspoiled : Spoiled content := by
    have hwords : (idleRun 2 "b").InWords := ⟨by decide, inWords_idleRun 2 "b"⟩
    have hremnant := Remnant.empty.append_extract hwords (n := 13) (by decide +kernel)
    rw [extract_line_idleRun, ByteArray.empty_append] at hremnant
    refine ⟨[idleRun 1 "a"], leftOver.toUTF8, idleRun 2 "b", .empty, hremnant, by decide +kernel,
      hwords, ?_⟩
    have hlines : Record.lines [idleRun 1 "a"] = (idleRun 1 "a").line := by simp [Record.lines]
    rw [hlines, ByteArray.append_empty, ← ByteArray.append_assoc]
  rw [Journal.opens_iff] at hopens
  exact hspoiled.opened_ne "h" j' hopens

end Journal

end Entitle
