import Entitle.Proofs.Cuts

/-!
# History files that are opened again

While records are given to a journal, any of them may fail to reach its file: the host refuses to
open it, takes only a part of the line, or does not get the line onto the disk. Whoever opens the
file at such a time finds what the journal holds: the records of the complete lines that were there
at the beginning, and then those that were kept. An unfinished line counts for nothing. It may still
stand at the end of the file, but only until the first append that gets as far as the file.

## Main statements

* `Journal.readLines_eq_ok_iff`: every line that is not blank is a record.
* `Journal.Course.exists_failure`: a record may fail to be kept.
* `Journal.Course.opens`: opening a file again loses and invents nothing.
-/
namespace Entitle.Journal

open Dialogue

variable {file : String} {c c' : Option ByteArray}

/-- Every line that is not blank is a record, in their order. -/
theorem readLines_eq_ok_iff {n : Nat} {ls : List (List Char)} {records : List Record} :
    readLines n ls = .ok records ↔
      (ls.filter fun l => !l.all Text.isBlank).map (fun l => Record.ofLine? (String.ofList l)) =
        records.map some := by
  induction ls generalizing n records with
  | nil => cases records <;> simp [readLines]
  | cons l ls ih =>
    rw [readLines]
    split
    · next hblank => rw [ih, List.filter_cons_of_neg (by simp [hblank])]
    · next hblank =>
      rw [List.filter_cons_of_pos (by simp [hblank]), List.map_cons]
      cases hl : Record.ofLine? (String.ofList l) with
      | none => cases records <;> simp
      | some first =>
        cases records with
        | nil => cases readLines (n + 1) ls <;> simp [Except.map]
        | cons r rest =>
          rw [List.map_cons, List.cons.injEq, Option.some.injEq, ← ih (n := n + 1)]
          cases readLines (n + 1) ls <;> simp [Except.map]

/-! ## Failing -/

/-- A line of which only a part was taken is cut off again. -/
theorem ends_appendLine_error (content : ByteArray) (line : String) (e : FileError) :
    Ends (Host.Serves file) (some content) (appendLine file line).run (.error (.host e))
      (some content) := by
  have hpart : Ends (Host.Serves file) (some content) (Host.ask (.append file line.toUTF8))
      (.error e) (some (content ++ line.toUTF8.extract 0 1)) :=
    ends_request_iff.2 (.notAppended content _ 1 e)
  have hundo : Ends (Host.Serves file) (some (content ++ line.toUTF8.extract 0 1))
      (Host.ask (.setLength file content.size)) (.ok ()) (some content) := by
    have hserves : Host.Serves file _ (.setLength file content.size) _ _ :=
      .cut (content ++ line.toUTF8.extract 0 1) content.size (by simp)
    rw [ByteArray.extract_append_eq_left rfl] at hserves
    exact ends_request_iff.2 hserves
  refine ends_run_bind.2 (.inl ⟨content.size, _,
    ends_step_ok.2 (ends_request_iff.2 (.length content)), ?_⟩)
  exact ends_bind_iff.2 ⟨.error e, _, ends_bind_iff.2 ⟨.error e, _, hpart, .done ..⟩,
    ends_bind_iff.2 ⟨_, _, hundo, .done ..⟩⟩

/-- A record that is no duplicate may fail to be kept. From then on no unfinished line is there. -/
theorem Course.exists_failure {j j' : Journal} {kept : List Record} (h : Course file c j kept c' j')
    (hcurrent : Current c j) (hfile : j.file = file) {r : Record} (hr : r.summary.InWords)
    (hnew : History.duplicate? (j.records ++ kept) r = none) :
    ∃ c₂, Course file c j kept c₂ { j' with tornAt := none } := by
  obtain ⟨hcurrent', rfl, hrecords⟩ := h.current hcurrent hfile
  rw [← hrecords] at hnew
  obtain ⟨text, hcontent, htext⟩ := hcurrent'.text
  have hends := ends_append_of_appendLine Host.Succeeds.serves hcontent htext hnew
    (ends_appendLine_error _ _ (.host 28 "No space left on device"))
  exact ⟨_, by simpa [Except.toOption] using h.next hr hends⟩

/-! ## Opening again -/

/-- Whatever becomes of the records that a journal is given, opening its file gives the journal. It
holds the records of the complete lines that the file began with, and then those that were kept. -/
theorem Course.opens {text : String} {j j' : Journal} {kept : List Record}
    (hopens : Opens file (some text.toUTF8) j) (h : Course file (some text.toUTF8) j kept c' j') :
    Opens file c' j' ∧ j'.records = j.records ++ kept ∧
      ((Text.lines (completePart text.toList)).filter fun l => !l.all Text.isBlank).map
        (fun l => Record.ofLine? (String.ofList l)) = j.records.map some := by
  rw [opens_iff] at hopens
  obtain ⟨records, hread, rfl⟩ := ofText_eq_ok_iff.1 ((opened_text file text).symm.trans hopens)
  obtain ⟨hcurrent, rfl, hrecords⟩ := h.current hopens rfl
  exact ⟨opens_iff.2 hcurrent, hrecords, readLines_eq_ok_iff.1 hread⟩

/-- The line of a record, and the beginning of another one. -/
def idleRunTorn : String :=
  (idleRun 1 "a").line ++ "\x7b\"id\":2,\"iden"

theorem ofText_idleRunTorn : ofText "h" idleRunTorn =
    .ok ⟨"h", [idleRun 1 "a"], some (idleRun 1 "a").line.utf8ByteSize⟩ := by
  have hwords : ∀ r ∈ [idleRun 1 "a"], r.InWords :=
    List.forall_mem_singleton.2 ⟨by decide, by decide⟩
  have htail : '\n' ∉ "\x7b\"id\":2,\"iden".toList := by decide +kernel
  simpa [Record.lines, idleRunTorn] using ofText_lines_append "h" hwords (by decide) htail

/-- A record that could not be kept at first is kept in a second attempt. -/
theorem Course.opens_idleRunTorn : ∃ j kept c' j',
    Opens "h" (some idleRunTorn.toUTF8) j ∧ Course "h" (some idleRunTorn.toUTF8) j kept c' j' ∧
      Opens "h" c' j' ∧ j'.records = [idleRun 1 "a", idleRun 2 "b"] := by
  have hwords : (⟨.success, 0, 0, 0, 0, false⟩ : Summary).InWords := by decide
  have hopened : Opens "h" (some idleRunTorn.toUTF8) _ :=
    opens_iff.2 ((opened_text _ _).trans ofText_idleRunTorn)
  have h₀ : Course "h" _ _ [] _ _ := .start (some idleRunTorn.toUTF8)
    ⟨"h", [idleRun 1 "a"], some (idleRun 1 "a").line.utf8ByteSize⟩
  obtain ⟨c₁, h₁⟩ := h₀.exists_failure (opens_iff.1 hopened) rfl (r := idleRun 0 "b") hwords rfl
  obtain ⟨c₂, h₂⟩ := h₁.exists_next (opens_iff.1 hopened) rfl (r := idleRun 0 "b") hwords rfl
  exact ⟨_, _, c₂, _, hopened, h₂, (h₂.opens hopened).1, (h₂.opens hopened).2.1⟩

end Entitle.Journal
