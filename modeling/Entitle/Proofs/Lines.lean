import Entitle.History.Journal
import Entitle.Proofs.Spelling
import Mathlib.Data.List.Induction

/-!
# Lines of records

A history file is lines of records. A record is read back from its line, and a text that ends with
a complete line can be read in two parts. So a line that is added to the complete lines of a file
adds its record to the records that are read, whatever else the file holds.

## Main definitions

* `Record.InWords`: the numbers of a record are words of 64 bits.
* `Text.EndsLine`: a text without an unfinished line.
* `Record.lines`: the text of several records.

## Main statements

* `Record.ofLine?_compact`: a record is read back from its line.
* `Text.lines_append`, `Journal.readLines_append`: complete lines are read apart from what follows.
* `Journal.ofText_append`: a line that is added to the complete lines of a file.
* `Journal.ofText_of_prefix`: what is read of a beginning of the text of records.
-/
namespace Entitle

open Json (field)

/-! ## Records as JSON -/

theorem Mode.ofJson?_name (m : Mode) : Mode.ofJson? (.str m.name) = some m := by
  cases m <;> rfl

theorem Status.ofJson?_name (s : Status) : Status.ofJson? (.str s.name) = some s := by
  cases s <;> rfl

/-- The numbers of a summary are words of 64 bits. -/
def Summary.InWords (s : Summary) : Prop :=
  s.applied < wordBound ∧ s.skipped < wordBound ∧ s.failed < wordBound ∧
    s.notAttempted < wordBound

instance (s : Summary) : Decidable s.InWords :=
  inferInstanceAs (Decidable (_ ∧ _ ∧ _ ∧ _))

/-- The numbers of a record are words of 64 bits. -/
def Record.InWords (r : Record) : Prop :=
  r.id < wordBound ∧ r.summary.InWords

theorem Summary.ofJson?_toJson {s : Summary} (h : s.InWords) : ofJson? s.toJson = some s := by
  obtain ⟨happlied, hskipped, hfailed, hleft⟩ := h
  simp [toJson, ofJson?, Json.objOf, field, Json.fields?, Json.Fields.required,
    Json.Fields.withDefault, List.lookup_cons, Json.asNatBelow?, Json.asBool?, Status.ofJson?_name,
    happlied, hskipped, hfailed, hleft]

namespace Record

theorem ofJson?_toJson {r : Record} (h : r.InWords) : ofJson? r.toJson = some r := by
  simp [toJson, ofJson?, Json.objOf, field, Json.fields?, Json.Fields.required, List.lookup_cons,
    Json.asNatBelow?, Json.asString?, Json.asBool?, Mode.ofJson?_name,
    Summary.ofJson?_toJson h.2, h.1]

theorem isWritable_toJson {r : Record} (h : r.InWords) : r.toJson.isWritable = true := by
  obtain ⟨hid, happlied, hskipped, hfailed, hleft⟩ := h
  simp only [wordBound] at *
  simp [toJson, Summary.toJson, Json.objOf, field, Json.isWritable, Json.membersWritable, *]

/-- A record is read back from its line. -/
theorem ofLine?_compact {r : Record} (h : r.InWords) : ofLine? r.toJson.compact = some r := by
  rw [ofLine?, Json.read?_compact (isWritable_toJson h), Option.bind_some, ofJson?_toJson h]

theorem toList_line (r : Record) : r.line.toList = r.toJson.compact.toList ++ ['\n'] := by
  simp [line]

/-- A line of a record is not blank. -/
theorem all_isBlank_compact (r : Record) : r.toJson.compact.toList.all Text.isBlank = false := by
  have hbrace : Text.isBlank '\x7b' = false := by decide
  simp [toJson, Json.objOf, Json.compact, hbrace]

/-- The text of records, one line after the other. -/
def lines (records : List Record) : String :=
  String.join (records.map line)

end Record

/-! ## Complete lines -/

namespace Text

/-- The text has no unfinished line at its end. -/
def EndsLine (cs : List Char) : Prop :=
  ∀ c ∈ cs.getLast?, c = '\n'

private theorem endsLine_nil : EndsLine [] := by simp [EndsLine]

theorem endsLine_concat (cs : List Char) : EndsLine (cs ++ ['\n']) := by simp [EndsLine]

theorem EndsLine.of_cons {c : Char} {cs : List Char} (h : EndsLine (c :: cs)) : EndsLine cs := by
  intro d hd
  cases cs with
  | nil => cases hd
  | cons e cs => exact h d (by rwa [List.getLast?_cons_cons])

theorem EndsLine.append {a b : List Char} (ha : EndsLine a) (hb : EndsLine b) :
    EndsLine (a ++ b) := by
  intro c hc
  rw [List.getLast?_append] at hc
  cases hlast : b.getLast? with
  | none => exact ha c (by simpa [hlast] using hc)
  | some d => exact hb c (by simpa [hlast] using hc)

theorem lines_ne_nil {cs : List Char} (h : cs ≠ []) : lines cs ≠ [] := by
  cases cs with
  | nil => exact absurd rfl h
  | cons c cs =>
    rw [lines]
    split
    · simp
    · split <;> simp

/-- Complete lines are read apart from what follows. -/
theorem lines_append {a : List Char} (ha : EndsLine a) (b : List Char) :
    lines (a ++ b) = lines a ++ lines b := by
  induction a with
  | nil => rfl
  | cons c a ih =>
    rw [List.cons_append, lines, lines]
    split
    · rw [ih ha.of_cons, List.cons_append]
    · next hc =>
      have hne : a ≠ [] := by
        rintro rfl
        exact hc (ha c rfl)
      obtain ⟨line, more, hlines⟩ := List.exists_cons_of_ne_nil (lines_ne_nil hne)
      rw [ih ha.of_cons, hlines]
      rfl

theorem lines_concat {body : List Char} (h : '\n' ∉ body) : lines (body ++ ['\n']) = [body] := by
  induction body with
  | nil => rfl
  | cons c body ih =>
    rw [List.mem_cons, not_or] at h
    rw [List.cons_append, lines, if_neg (Ne.symm h.1), ih h.2]

theorem dropEndWhile_eq_nil {α : Type} {p : α → Bool} {xs : List α} (h : ∀ x ∈ xs, p x = true) :
    dropEndWhile p xs = [] := by
  induction xs with
  | nil => rfl
  | cons x xs ih =>
    obtain ⟨hx, hxs⟩ := List.forall_mem_cons.1 h
    rw [dropEndWhile, ih hxs]
    simp [hx]

/-- What is dropped is the end whose members all satisfy `p`. -/
theorem dropEndWhile_append {α : Type} {p : α → Bool} {xs ys : List α}
    (hxs : ∀ x ∈ xs.getLast?, p x = false) (hys : ∀ y ∈ ys, p y = true) :
    dropEndWhile p (xs ++ ys) = xs := by
  induction xs with
  | nil => exact dropEndWhile_eq_nil hys
  | cons x xs ih =>
    rw [List.cons_append, dropEndWhile]
    cases xs with
    | nil =>
      have hx : p x = false := hxs x rfl
      rw [List.nil_append, dropEndWhile_eq_nil hys]
      simp [hx]
    | cons y xs => rw [ih fun z hz => hxs z (by rwa [List.getLast?_cons_cons])]

theorem exists_dropEndWhile {α : Type} (p : α → Bool) (xs : List α) :
    (∀ x ∈ (dropEndWhile p xs).getLast?, p x = false) ∧
      ∃ ys, xs = dropEndWhile p xs ++ ys ∧ ∀ y ∈ ys, p y = true := by
  induction xs with
  | nil => exact ⟨by simp [dropEndWhile], [], rfl, by simp⟩
  | cons x xs ih =>
    obtain ⟨hlast, ys, hxs, hys⟩ := ih
    rw [dropEndWhile]
    split
    · next hnil =>
      rw [hnil, List.nil_append] at hxs
      subst hxs
      by_cases hx : p x = true
      · rw [if_pos hx]
        exact ⟨by simp, x :: xs, rfl, List.forall_mem_cons.2 ⟨hx, hys⟩⟩
      · rw [if_neg hx]
        exact ⟨by simpa using hx, xs, rfl, hys⟩
    · next hkept =>
      obtain ⟨y, kept, hcons⟩ := List.exists_cons_of_ne_nil hkept
      refine ⟨?_, ys, congrArg (x :: ·) hxs, hys⟩
      rw [hcons, List.getLast?_cons_cons, ← hcons]
      exact hlast

end Text

namespace Journal

/-- The complete part of complete lines with an unfinished one is the complete lines. -/
theorem completePart_append {a b : List Char} (ha : Text.EndsLine a) (hb : '\n' ∉ b) :
    completePart (a ++ b) = a := by
  refine Text.dropEndWhile_append (fun c hc => by simp [ha c hc]) fun c hc => ?_
  rw [bne_iff_ne]
  rintro rfl
  exact hb hc

theorem completePart_eq_self {text : List Char} (h : Text.EndsLine text) :
    completePart text = text := by
  simpa using completePart_append h (b := []) (by simp)

/-- A text is its complete part with an unfinished line. -/
theorem exists_completePart (text : List Char) : Text.EndsLine (completePart text) ∧
    ∃ tail, text = completePart text ++ tail ∧ '\n' ∉ tail := by
  obtain ⟨hlast, tail, htext, htail⟩ := Text.exists_dropEndWhile (· != '\n') text
  refine ⟨fun c hc => by simpa using hlast c hc, tail, htext, fun h => ?_⟩
  simpa using htail _ h

theorem exists_eq_completePart_append (text : String) :
    ∃ tail : String, text = String.ofList (completePart text.toList) ++ tail := by
  obtain ⟨tail, htext, -⟩ := (exists_completePart text.toList).2
  refine ⟨String.ofList tail, ?_⟩
  rw [← String.ofList_append, ← htext, String.ofList_toList]

/-- Complete lines before a text are in its complete part. -/
theorem completePart_of_endsLine {a : List Char} (ha : Text.EndsLine a) (b : List Char) :
    completePart (a ++ b) = a ++ completePart b := by
  obtain ⟨hends, tail, hb, htail⟩ := exists_completePart b
  have h := completePart_append (ha.append hends) htail
  rwa [List.append_assoc, ← hb] at h

/-! ## Reading lines -/

/-- The record of one more line comes after the others. -/
theorem readLines_append {n : Nat} {ls : List (List Char)} {records : List Record}
    (h : readLines n ls = .ok records) {r : Record} (hr : r.InWords) :
    readLines n (ls ++ [r.toJson.compact.toList]) = .ok (records ++ [r]) := by
  induction ls generalizing n records with
  | nil =>
    cases h
    rw [List.nil_append, readLines, Record.all_isBlank_compact, String.ofList_toList,
      Record.ofLine?_compact hr]
    rfl
  | cons l ls ih =>
    rw [readLines] at h
    rw [List.cons_append, readLines]
    split
    · next hblank =>
      rw [if_pos hblank] at h
      exact ih h
    · next hblank =>
      rw [if_neg hblank] at h
      cases hl : Record.ofLine? (String.ofList l) with
      | none => simp [hl] at h
      | some first =>
        cases hls : readLines (n + 1) ls with
        | error e => simp [hl, hls, Except.map] at h
        | ok more =>
          simp only [hl, hls, Except.map, Except.ok.injEq] at h
          subst h
          simp [ih hls, Except.map]

/-- A text is opened if its complete lines are read. -/
theorem ofText_eq_ok_iff {file text : String} {j : Journal} : ofText file text = .ok j ↔
    ∃ records, readLines 1 (Text.lines (completePart text.toList)) = .ok records ∧
      j = ⟨file, records,
        if (String.ofList (completePart text.toList)).utf8ByteSize < text.utf8ByteSize
        then some (String.ofList (completePart text.toList)).utf8ByteSize else none⟩ := by
  rw [ofText]
  cases hread : readLines 1 (Text.lines (completePart text.toList)) with
  | error line => simp
  | ok records => simp [eq_comm]

/-- Nothing of complete lines has to be cut off. -/
theorem ofText_of_endsLine {file text : String} {records : List Record}
    (h : Text.EndsLine text.toList) (hread : readLines 1 (Text.lines text.toList) = .ok records) :
    ofText file text = .ok ⟨file, records, none⟩ := by
  have hcomplete := completePart_eq_self h
  refine ofText_eq_ok_iff.2 ⟨records, by rw [hcomplete, hread], ?_⟩
  simp [hcomplete]

/-- The complete lines of a file are what is left after the unfinished line is cut off. -/
theorem ofText_completePart {file text : String} {j : Journal} (h : ofText file text = .ok j) :
    ofText file (String.ofList (completePart text.toList)) = .ok { j with tornAt := none } := by
  obtain ⟨records, hread, rfl⟩ := ofText_eq_ok_iff.1 h
  refine ofText_of_endsLine ?_ ?_
  · simpa using (exists_completePart text.toList).1
  · simpa using hread

/-- A line that is added to the complete lines of a file adds its record. -/
theorem ofText_append {file text : String} {j : Journal} (h : ofText file text = .ok j)
    {r : Record} (hr : r.InWords) :
    ofText file (String.ofList (completePart text.toList) ++ r.line) =
      .ok ⟨file, j.records ++ [r], none⟩ := by
  obtain ⟨records, hread, rfl⟩ := ofText_eq_ok_iff.1 h
  have hends := (exists_completePart text.toList).1
  refine ofText_of_endsLine ?_ ?_
  · rw [String.toList_append, String.toList_ofList, Record.toList_line]
    exact hends.append (Text.endsLine_concat _)
  · rw [String.toList_append, String.toList_ofList, Record.toList_line, Text.lines_append hends,
      Text.lines_concat (Json.lineFeed_notMem_compact _ (Record.isWritable_toJson hr))]
    exact readLines_append hread hr

/-- The number of bytes of the complete lines is noted if an unfinished line follows them. -/
theorem tornAt_ofText {file text : String} {j : Journal} (h : ofText file text = .ok j) :
    (String.ofList (completePart text.toList) = text ∧ j.tornAt = none) ∨
      j.tornAt = some (String.ofList (completePart text.toList)).utf8ByteSize := by
  obtain ⟨records, hread, rfl⟩ := ofText_eq_ok_iff.1 h
  by_cases htorn : (String.ofList (completePart text.toList)).utf8ByteSize < text.utf8ByteSize
  · exact .inr (if_pos htorn)
  · refine .inl ⟨?_, if_neg htorn⟩
    obtain ⟨tail, htext⟩ := exists_eq_completePart_append text
    generalize String.ofList (completePart text.toList) = complete at *
    rw [htext, String.utf8ByteSize_append] at htorn
    have htail : tail = "" := String.utf8ByteSize_eq_zero_iff.1 (by omega)
    rw [htext, htail, String.append_empty]

theorem tornAt_lt {file text : String} {j : Journal} (h : ofText file text = .ok j) {n : Nat}
    (hn : n ∈ j.tornAt) : n < text.utf8ByteSize := by
  obtain ⟨records, -, rfl⟩ := ofText_eq_ok_iff.1 h
  obtain ⟨hlt, hn⟩ := Option.ite_none_right_eq_some.1 hn
  cases hn
  exact hlt

end Journal

/-! ## The text of records -/

namespace Record

theorem lines_cons (r : Record) (records : List Record) :
    lines (r :: records) = r.line ++ lines records := by
  simp [lines]

theorem lines_append (records more : List Record) :
    lines (records ++ more) = lines records ++ lines more := by
  simp [lines]

theorem utf8ByteSize_lines_take_le (records : List Record) (k : Nat) :
    (lines (records.take k)).utf8ByteSize ≤ (lines records).utf8ByteSize := by
  conv_rhs => rw [← List.take_append_drop k records, lines_append, String.utf8ByteSize_append]
  exact Nat.le_add_right ..

theorem endsLine_lines (records : List Record) : Text.EndsLine (lines records).toList := by
  induction records with
  | nil => exact Text.endsLine_nil
  | cons r records ih =>
    rw [lines_cons, String.toList_append, toList_line]
    exact (Text.endsLine_concat _).append ih

end Record

namespace Journal

/-- The text of records is opened with these records. -/
theorem ofText_lines (file : String) {records : List Record} (hwords : ∀ r ∈ records, r.InWords) :
    ofText file (Record.lines records) = .ok ⟨file, records, none⟩ := by
  induction records using List.reverseRecOn with
  | nil => rfl
  | append_singleton records r ih =>
    obtain ⟨hrecords, hr⟩ := List.forall_mem_append.1 hwords
    have h := ofText_append (ih hrecords) (hr r (List.mem_singleton_self r))
    rw [completePart_eq_self (Record.endsLine_lines records), String.ofList_toList] at h
    simpa [Record.lines_append, Record.lines] using h

/-- An unfinished line after the lines of records is noted, and not read. -/
theorem ofText_lines_append (file : String) {records : List Record}
    (hwords : ∀ r ∈ records, r.InWords) {tail : String} (hne : tail ≠ "")
    (htail : '\n' ∉ tail.toList) : ofText file (Record.lines records ++ tail) =
      .ok ⟨file, records, some (Record.lines records).utf8ByteSize⟩ := by
  have hends := Record.endsLine_lines records
  obtain ⟨read, hread, hjournal⟩ := ofText_eq_ok_iff.1 (ofText_lines file hwords)
  obtain rfl : records = read := congrArg Journal.records hjournal
  have hcomplete : completePart (Record.lines records ++ tail).toList =
      (Record.lines records).toList := by
    rw [String.toList_append, completePart_append hends htail]
  rw [completePart_eq_self hends] at hread
  refine ofText_eq_ok_iff.2 ⟨records, by rw [hcomplete, hread], ?_⟩
  have hlt : (Record.lines records).utf8ByteSize <
      (Record.lines records ++ tail).utf8ByteSize := by
    have hpos : tail.utf8ByteSize ≠ 0 := fun h => hne (String.utf8ByteSize_eq_zero_iff.1 h)
    rw [String.utf8ByteSize_append]
    omega
  rw [hcomplete, String.ofList_toList, if_pos hlt]

/-- A beginning of the text of records holds complete lines of some of them, the first ones. These
are the lines that are wholly in it. -/
theorem completePart_of_prefix {records : List Record} (hwords : ∀ r ∈ records, r.InWords)
    {text : String} (hstarts : text.toList <+: (Record.lines records).toList) :
    ∃ k ≤ records.length,
      completePart text.toList = (Record.lines (records.take k)).toList ∧
      ∀ i ≤ records.length,
        i ≤ k ↔ (Record.lines (records.take i)).utf8ByteSize ≤ text.utf8ByteSize := by
  induction records generalizing text with
  | nil =>
    obtain rfl : text = "" := by
      simpa [Record.lines] using List.prefix_nil.1 hstarts
    exact ⟨0, Nat.le_refl 0, rfl, by simp [Record.lines]⟩
  | cons r records ih =>
    obtain ⟨hr, hrecords⟩ := List.forall_mem_cons.1 hwords
    rw [Record.lines_cons, String.toList_append] at hstarts
    by_cases hlength : r.line.toList.length ≤ text.toList.length
    · -- the first line is wholly in the beginning
      obtain ⟨rest, hrest⟩ :=
        List.prefix_of_prefix_length_le (List.prefix_append _ _) hstarts hlength
      obtain rfl : text = r.line ++ String.ofList rest := by
        rw [← String.toList_inj, String.toList_append, String.toList_ofList, hrest]
      rw [String.toList_append, List.prefix_append_right_inj] at hstarts
      obtain ⟨k, hk, hcomplete, hlines⟩ := ih hrecords hstarts
      refine ⟨k + 1, by simpa using hk, ?_, fun i hi => ?_⟩
      · have hline : Text.EndsLine r.line.toList := by
          rw [Record.toList_line]
          exact Text.endsLine_concat _
        rw [String.toList_append, completePart_of_endsLine hline, hcomplete, List.take_succ_cons,
          Record.lines_cons, String.toList_append]
      · cases i with
        | zero => simp [Record.lines]
        | succ i =>
          have hi' := hlines i (by simpa using hi)
          rw [List.take_succ_cons, Record.lines_cons, String.utf8ByteSize_append,
            String.utf8ByteSize_append]
          omega
    · -- the beginning ends in the first line
      have hshort := List.prefix_of_prefix_length_le hstarts (List.prefix_append _ _)
        (Nat.le_of_not_le hlength)
      rw [Record.toList_line] at hshort hlength
      obtain hwhole | hbody := List.prefix_concat_iff.1 hshort
      · rw [hwhole] at hlength
        exact absurd (Nat.le_refl _) hlength
      · have hopen : '\n' ∉ text.toList := fun h =>
          Json.lineFeed_notMem_compact _ (Record.isWritable_toJson hr) (hbody.subset h)
        refine ⟨0, Nat.zero_le _, ?_, fun i hi => ?_⟩
        · simpa [Record.lines] using completePart_append Text.endsLine_nil hopen
        · cases i with
          | zero => simp [Record.lines]
          | succ i =>
            obtain ⟨rest, hrest⟩ := hbody
            have hcompact : r.toJson.compact = text ++ String.ofList rest := by
              rw [← String.toList_inj, String.toList_append, String.toList_ofList, hrest]
            have hlong : text.utf8ByteSize < r.line.utf8ByteSize := by
              have hfeed : "\n".utf8ByteSize = 1 := rfl
              rw [Record.line, String.utf8ByteSize_append, hcompact, String.utf8ByteSize_append]
              omega
            rw [List.take_succ_cons, Record.lines_cons, String.utf8ByteSize_append]
            omega

/-- A beginning of the text of records is opened with the records whose lines are wholly in it. -/
theorem ofText_of_prefix (file : String) {records : List Record}
    (hwords : ∀ r ∈ records, r.InWords) {text : String}
    (hstarts : text.toList <+: (Record.lines records).toList) :
    ∃ k ≤ records.length, (∃ tornAt, ofText file text = .ok ⟨file, records.take k, tornAt⟩) ∧
      ∀ i ≤ records.length,
        i ≤ k ↔ (Record.lines (records.take i)).utf8ByteSize ≤ text.utf8ByteSize := by
  obtain ⟨k, hk, hcomplete, hlines⟩ := completePart_of_prefix hwords hstarts
  have htake : ∀ r ∈ records.take k, r.InWords := fun r hr => hwords r (List.mem_of_mem_take hr)
  obtain ⟨records', hread, heq⟩ := ofText_eq_ok_iff.1 (ofText_lines file htake)
  rw [completePart_eq_self (Record.endsLine_lines _), ← hcomplete,
    ← (Journal.mk.inj heq).2.1] at hread
  exact ⟨k, hk, ⟨_, ofText_eq_ok_iff.2 ⟨_, hread, rfl⟩⟩, hlines⟩

end Journal

end Entitle
