import Entitle.Proofs.Files

/-!
# History files that were cut off

A machine may stop while a history file is written, and then only a beginning of the file is on the
disk. When that beginning is a text, the file is opened with the records whose lines are wholly in
it, and more records can be kept after them. The file is read as a text as a whole: when the
beginning ends within a character, it is not opened, though only an unfinished line is damaged.

## Main definitions

* `Journal.Opens`: opening a file gives a journal and nothing else.

## Main statements

* `Journal.exists_ends_append`: a record that is no duplicate can be kept.
* `Journal.not_opens_of_not_isValidUTF8`: a file that is no text is not opened.
* `Journal.opens_of_cut`: a history file of which only a beginning is left.
-/
namespace Entitle

open Dialogue

/-! ## Beginnings of a text -/

/-- The first bytes of a text are a beginning of it if they are a text. -/
theorem exists_prefix_of_isValidUTF8 {text : String} {n : Nat}
    (h : (text.toUTF8.extract 0 n).IsValidUTF8) :
    ∃ start : String, text.toUTF8.extract 0 n = start.toUTF8 ∧ start.toList <+: text.toList := by
  obtain ⟨start, hstart⟩ : ∃ start : String, start.toUTF8 = text.toUTF8.extract 0 n :=
    ⟨⟨_, h⟩, rfl⟩
  have hwhole : start.toUTF8 ++ text.toUTF8.extract n text.toUTF8.size = text.toUTF8 := by
    rw [hstart, ByteArray.extract_append_extract, Nat.zero_min, ByteArray.extract_zero_max_size]
  refine ⟨start, hstart.symm, List.isPrefix_of_utf8Encode_append_eq_utf8Encode
    (text.toUTF8.extract n text.toUTF8.size) ?_⟩
  rwa [String.utf8Encode_toList, String.utf8Encode_toList]

theorem isValidUTF8_utf8Encode_append {cs : List Char} {b : ByteArray} :
    (cs.utf8Encode ++ b).IsValidUTF8 ↔ b.IsValidUTF8 := by
  induction cs with
  | nil => simp
  | cons c cs ih =>
    rw [← List.singleton_append, List.utf8Encode_append, ByteArray.append_assoc,
      ByteArray.isValidUTF8_utf8Encode_singleton_append_iff, ih]

/-- Whether a beginning that holds the complete text `a` is a text, is decided by what follows. -/
theorem isValidUTF8_extract_add {a b : String} {n : Nat} :
    ((a ++ b).toUTF8.extract 0 (a.utf8ByteSize + n)).IsValidUTF8 ↔
      (b.toUTF8.extract 0 n).IsValidUTF8 := by
  have hsplit : (a ++ b).toUTF8.extract 0 (a.utf8ByteSize + n)
      = a.toList.utf8Encode ++ b.toUTF8.extract 0 n := by
    rw [toUTF8_append, ByteArray.extract_append, String.utf8Encode_toList]
    congr 1 <;> ext1 <;> simp
  rw [hsplit, isValidUTF8_utf8Encode_append]

namespace Journal

variable {file : String} {c c' : Option ByteArray}

/-! ## Opening -/

/-- Opening the file gives the journal, whatever else happens, and leaves the file as it is. -/
def Opens (file : String) (c : Option ByteArray) (j : Journal) : Prop :=
  ∀ result c', Ends (Host.Serves file) c (load file) result c' ↔ result = .ok j ∧ c' = c

theorem opens_iff {j : Journal} : Opens file c j ↔ opened file c = .ok j := by
  constructor
  · intro h
    exact ((h _ _).1 (ends_load_iff.2 ⟨rfl, rfl⟩)).1
  · intro h result c'
    rw [ends_load_iff, h]

/-- A file that is no text is not opened. -/
theorem not_opens_of_not_isValidUTF8 {content : ByteArray} (h : ¬ content.IsValidUTF8)
    (j : Journal) : ¬ Opens file (some content) j := by
  rw [opens_iff, opened_of_not_isValidUTF8 file h]
  exact nofun

/-! ## Keeping a record -/

theorem ends_prepare_ok (file : String) (c : Option ByteArray) :
    Ends (Host.Succeeds file) c (prepare file).run (.ok ()) (some (c.getD .empty)) := by
  have hopen : Ends (Host.Succeeds file) c (step (Host.ask (.openAppend file))).run (.ok ())
      (some (c.getD .empty)) :=
    ends_step_ok.2 (ends_request_iff.2 (.opened c))
  rw [prepare]
  split
  · exact hopen
  · next directory h =>
    exact ends_run_bind.2
      (.inl ⟨(), c, ends_step_ok.2 (ends_request_iff.2 (.directory c h)), hopen⟩)

theorem ends_appendLine_ok (content : ByteArray) (line : String) :
    Ends (Host.Succeeds file) (some content) (appendLine file line).run (.ok ())
      (some (content ++ line.toUTF8)) := by
  refine ends_run_bind.2 (.inl ⟨content.size, _,
    ends_step_ok.2 (ends_request_iff.2 (.length content)),
    ends_bind_iff.2 ⟨.ok (), _, ?_, .done ..⟩⟩)
  exact ends_bind_iff.2 ⟨.ok (), _, ends_request_iff.2 (.appended content _),
    ends_request_iff.2 (.synced _)⟩

theorem ends_cutTorn_ok {j : Journal} {content : ByteArray}
    (h : ∀ n ∈ j.tornAt, n ≤ content.size) :
    Ends (Host.Succeeds j.file) (some content) j.cutTorn.run (.ok { j with tornAt := none })
      (some (j.tornAt.elim content (content.extract 0))) := by
  obtain ⟨file, records, tornAt⟩ := j
  cases tornAt with
  | none => exact .done ..
  | some n =>
    exact ends_run_bind.2 (.inl ⟨(), _,
      ends_step_ok.2 (ends_request_iff.2 (.cut content n (h n rfl))), .done ..⟩)

/-- The unfinished line of a journal begins within a file. -/
def Fits (c : Option ByteArray) (j : Journal) : Prop :=
  ∀ n ∈ j.tornAt, n ≤ (c.getD .empty).size

/-- A journal without an unfinished line fits to every file. -/
theorem fits_of_tornAt {j : Journal} (h : j.tornAt = none) : Fits c j := fun n hn => by
  rw [h] at hn
  cases hn

theorem fits_of_ofText {j : Journal} {text : String} (hcontent : c.getD .empty = text.toUTF8)
    (htext : ofText j.file text = .ok j) : Fits c j := fun n hn => by
  rw [hcontent]
  exact Nat.le_of_lt (tornAt_lt htext hn)

/-- The file of a record that is no duplicate can be opened, and its unfinished line be cut off.
Then the append ends as that of the line does, whether that goes through or not. -/
theorem ends_append_of_fits
    {serves : Option ByteArray → (q : Host.Request) → Host.Reply q → Option ByteArray → Prop}
    {j : Journal} {r : Record} {written : Except StoreError Unit}
    (hserves : ∀ {c q reply c'}, Host.Succeeds j.file c q reply c' → serves c q reply c')
    (hfits : Fits c j) (hnew : History.duplicate? j.records r = none) :
    let content := c.getD .empty
    let stored := { r with id := nextId j.records }
    Ends serves (some (j.tornAt.elim content (content.extract 0)))
      (appendLine j.file stored.line).run written c' →
    Ends serves c (j.append r)
      (match written with
        | .ok () => (.ok stored, ⟨j.file, j.records ++ [stored], none⟩)
        | .error e => (.error e, { j with tornAt := none })) c' := by
  intro content stored hline
  have hready : Ends (Host.Succeeds j.file) c (do prepare j.file; j.cutTorn : Step Journal).run
      (.ok { j with tornAt := none }) (some (j.tornAt.elim content (content.extract 0))) :=
    ends_run_bind.2 (.inl ⟨(), _, ends_prepare_ok j.file c, ends_cutTorn_ok hfits⟩)
  rw [append, hnew]
  refine ends_bind_iff.2 ⟨_, _, hready.mono hserves, ends_bind_iff.2 ⟨written, _, hline, ?_⟩⟩
  cases written <;> exact .done ..

/-- The same for the file of a text: what the cut leaves of it are the complete lines. -/
theorem ends_append_of_appendLine
    {serves : Option ByteArray → (q : Host.Request) → Host.Reply q → Option ByteArray → Prop}
    {j : Journal} {text : String} {r : Record} {written : Except StoreError Unit}
    (hserves : ∀ {c q reply c'}, Host.Succeeds j.file c q reply c' → serves c q reply c')
    (hcontent : c.getD .empty = text.toUTF8) (htext : ofText j.file text = .ok j)
    (hnew : History.duplicate? j.records r = none) :
    let complete := String.ofList (completePart text.toList)
    let stored := { r with id := nextId j.records }
    Ends serves (some complete.toUTF8) (appendLine j.file stored.line).run written c' →
    Ends serves c (j.append r)
      (match written with
        | .ok () => (.ok stored, ⟨j.file, j.records ++ [stored], none⟩)
        | .error e => (.error e, { j with tornAt := none })) c' := by
  intro complete stored hline
  refine ends_append_of_fits hserves (fits_of_ofText hcontent htext) hnew ?_
  rw [hcontent, elim_tornAt htext]
  exact hline

/-- If everything succeeds, the line of a record that is no duplicate comes after the complete
lines. -/
theorem ends_append_ok {j : Journal} {text : String} {r : Record}
    (hcontent : c.getD .empty = text.toUTF8) (htext : ofText j.file text = .ok j)
    (hnew : History.duplicate? j.records r = none) :
    let stored := { r with id := nextId j.records }
    Ends (Host.Succeeds j.file) c (j.append r)
      (.ok stored, ⟨j.file, j.records ++ [stored], none⟩)
      (some (String.ofList (completePart text.toList) ++ stored.line).toUTF8) := by
  intro stored
  rw [toUTF8_append]
  exact ends_append_of_appendLine id hcontent htext hnew (ends_appendLine_ok _ _)

/-- A record that is no duplicate can be kept. -/
theorem exists_ends_append {j : Journal} (h : Current c j) {r : Record}
    (hnew : History.duplicate? j.records r = none) :
    let stored := { r with id := nextId j.records }
    ∃ c', Ends (Host.Serves j.file) c (j.append r)
      (.ok stored, ⟨j.file, j.records ++ [stored], none⟩) c' := by
  obtain ⟨text, hcontent, htext⟩ := h.text
  exact ⟨_, (ends_append_ok hcontent htext hnew).mono Host.Succeeds.serves⟩

/-- So it can come after those that were kept. -/
theorem Course.exists_next {j j' : Journal} {kept : List Record} (h : Course file c j kept c' j')
    (hcurrent : Current c j) (hfile : j.file = file) {r : Record} (hr : r.summary.InWords)
    (hnew : History.duplicate? (j.records ++ kept) r = none) :
    let stored := { r with id := nextId (j.records ++ kept) }
    ∃ c₂, Course file c j (kept ++ [stored]) c₂ ⟨file, j.records ++ kept ++ [stored], none⟩ := by
  obtain ⟨hcurrent', rfl, hrecords⟩ := h.current hcurrent hfile
  rw [← hrecords] at hnew ⊢
  obtain ⟨c₂, hends⟩ := exists_ends_append hcurrent' hnew
  exact ⟨c₂, .next h hr hends⟩

/-! ## A cut -/

/-- A history file of which only a beginning is left is opened if the beginning is a text. The
journal holds the records whose lines are wholly in it, and those that are kept later come after
them. -/
theorem opens_of_cut {c₀ : Option ByteArray} {j : Journal} {kept : List Record}
    (hfresh : c₀.getD .empty = .empty) (hkept : Course file c₀ ⟨file, [], none⟩ kept c j) (n : Nat)
    (htext : ((c.getD .empty).extract 0 n).IsValidUTF8) :
    let cut := (c.getD .empty).extract 0 n
    c.getD .empty = (Record.lines kept).toUTF8 ∧
      ∃ j₁ k, Opens file (some cut) j₁ ∧ j₁.records = kept.take k ∧
        (∀ i < kept.length, i < k ↔ (Record.lines (kept.take (i + 1))).utf8ByteSize ≤ n) ∧
        ∀ more c₂ j₂, Course file (some cut) j₁ more c₂ j₂ →
          Opens file c₂ j₂ ∧ j₂.records = kept.take k ++ more := by
  intro cut
  obtain ⟨hcontent, -, hwords⟩ := hkept.content hfresh rfl
  rw [hcontent] at htext
  obtain ⟨start, hcut, hstarts⟩ := exists_prefix_of_isValidUTF8 htext
  obtain ⟨k, hk, ⟨tornAt, hstart⟩, hlines⟩ := ofText_of_prefix file hwords hstarts
  have hopened : opened file (some cut) = .ok ⟨file, kept.take k, tornAt⟩ := by
    rw [show cut = start.toUTF8 by rw [← hcut, ← hcontent], opened_text, hstart]
  refine ⟨hcontent, _, k, opens_iff.2 hopened, rfl, fun i hi => ?_, fun more c₂ j₂ h => ?_⟩
  · have hsize : start.utf8ByteSize = min n (Record.lines kept).utf8ByteSize := by
      have h := congrArg ByteArray.size hcut
      simpa [ByteArray.size_extract] using h.symm
    rw [← Nat.succ_le_iff, hlines (i + 1) hi, hsize, Nat.le_min]
    exact and_iff_left (Record.utf8ByteSize_lines_take_le kept (i + 1))
  · obtain ⟨hcurrent, hfile, hrecords⟩ := h.current hopened rfl
    exact ⟨opens_iff.2 (hfile ▸ hcurrent), hrecords⟩

/-- A record of a run that had nothing to do. -/
def idleRun (id : Nat) (identity : String) : Record where
  id
  identity
  checksum := "c"
  mode := .apply
  summary := ⟨.success, 0, 0, 0, 0, false⟩
  principal := "p"
  rerun := false
  recordedAt := "2026-01-01T00:00:00Z"

theorem exists_course_idleRun : ∃ c j, Course "h" none ⟨"h", [], none⟩
    [idleRun 1 "a", idleRun 2 "ä"] c j := by
  have hwords : (⟨.success, 0, 0, 0, 0, false⟩ : Summary).InWords := by decide
  have h₀ : Course "h" none ⟨"h", [], none⟩ [] none ⟨"h", [], none⟩ := .start ..
  obtain ⟨c₁, h₁⟩ := h₀.exists_next rfl rfl (r := idleRun 0 "a") hwords rfl
  obtain ⟨c₂, h₂⟩ := h₁.exists_next rfl rfl (r := idleRun 0 "ä") hwords rfl
  exact ⟨c₂, _, h₂⟩

private theorem lines_idleRun :
    Record.lines [idleRun 1 "a", idleRun 2 "ä"] = (idleRun 1 "a").line ++ (idleRun 2 "ä").line := by
  simp [Record.lines]

/-- The second line begins with `{"id":2,"identity":"`, which are 20 bytes. -/
theorem opens_of_cut_idleRun : ∃ c j₀,
    Course "h" none ⟨"h", [], none⟩ [idleRun 1 "a", idleRun 2 "ä"] c j₀ ∧
      let cut := (c.getD .empty).extract 0 ((idleRun 1 "a").line.utf8ByteSize + 20)
      cut.IsValidUTF8 ∧ ∃ j, Opens "h" (some cut) j ∧ j.records = [idleRun 1 "a"] ∧
        ∀ more c₂ j₂, Course "h" (some cut) j more c₂ j₂ →
          Opens "h" c₂ j₂ ∧ j₂.records = idleRun 1 "a" :: more := by
  obtain ⟨c, j₀, h⟩ := exists_course_idleRun
  have htext : ((c.getD .empty).extract 0
      ((idleRun 1 "a").line.utf8ByteSize + 20)).IsValidUTF8 := by
    rw [(h.content rfl rfl).1, lines_idleRun, isValidUTF8_extract_add]
    decide +kernel
  obtain ⟨-, j, k, hopens, hrecords, hlines, hmore⟩ := opens_of_cut rfl h _ htext
  have hfirst : 0 < k := (hlines 0 (by decide)).2 (by decide +kernel)
  have hsecond : ¬ 1 < k := fun hk => absurd ((hlines 1 (by decide)).1 hk) (by decide +kernel)
  obtain rfl : k = 1 := by omega
  exact ⟨c, j₀, h, htext, j, hopens, hrecords, hmore⟩

/-- One byte later the beginning ends within a character. Then the file is not opened, although the
line of the first record is wholly in it. -/
theorem not_opens_of_cut_idleRun : ∃ c j₀,
    Course "h" none ⟨"h", [], none⟩ [idleRun 1 "a", idleRun 2 "ä"] c j₀ ∧
      ∀ j, ¬ Opens "h"
        (some ((c.getD .empty).extract 0 ((idleRun 1 "a").line.utf8ByteSize + 21))) j := by
  obtain ⟨c, j₀, h⟩ := exists_course_idleRun
  refine ⟨c, j₀, h, not_opens_of_not_isValidUTF8 ?_⟩
  rw [(h.content rfl rfl).1, lines_idleRun, isValidUTF8_extract_add]
  decide +kernel

end Journal

end Entitle
