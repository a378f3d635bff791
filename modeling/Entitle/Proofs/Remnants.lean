import Entitle.Proofs.Fragments
import Entitle.Proofs.Reopening

/-!
# Files with unfinished lines in them

An append that fails may leave the beginning of a line at the end of a history file. As long as the
line stays unfinished, nothing is lost: the records are those of the lines before it. But once
another line comes behind it, both together are one line, and that is no record, whatever was left.
Such a file is spoiled.

The line feed that ends a line is a byte which is a part of no other character. So the lines of a
file can be told apart among its bytes, also if these are no text as a whole.

## Main definitions

* `Journal.Unfinished`: the last line of a file has no end.
* `Journal.Remnant`: what appends that failed have left.
* `Journal.Holds`, `Journal.Spoiled`: a file with records, and one with a spoiled line.

## Main statements

* `exists_append_of_toUTF8`: a text can be split where a character begins among its bytes.
* `Journal.Holds.append_extract`: a part of a line that comes to the end of a file.
* `Journal.Holds.exists_opened`, `Journal.Spoiled.opened_ne`: which files are opened.
-/
namespace Entitle

/-! ## Texts and bytes -/

/-- Where a character begins among the bytes of a text, the text can be split. -/
theorem exists_append_of_toUTF8 {text : String} {a b : ByteArray} {cs : List Char} (hcs : cs ≠ [])
    (h : text.toUTF8 = a ++ (cs.utf8Encode ++ b)) :
    ∃ first last : String, text = first ++ last ∧ first.toUTF8 = a ∧ cs <+: last.toList := by
  have hsize : 0 < cs.utf8Encode.size := by
    rw [Nat.pos_iff_ne_zero]
    simpa using hcs
  have hbytes : text.toByteArray = a ++ (cs.utf8Encode ++ b) := h
  have hlt : a.size < text.utf8ByteSize := by
    rw [← String.size_toByteArray, hbytes, ByteArray.size_append, ByteArray.size_append]
    omega
  have hbyte : text.getUTF8Byte ⟨a.size⟩ hlt = cs.utf8Encode[0] := by
    simp [String.getUTF8Byte, hbytes, ByteArray.getElem_append_right, ByteArray.getElem_append_left,
      hsize]
  have hvalid : (⟨a.size⟩ : String.Pos.Raw).IsValid text := by
    refine String.Pos.Raw.isValid_iff_isUTF8FirstByte.2 (.inr ⟨hlt, ?_⟩)
    rw [hbyte]
    exact ByteArray.isValidUTF8_utf8Encode.isUTF8FirstByte_getElem_zero hsize
  obtain ⟨first, last, rfl, hfirst⟩ := String.Pos.Raw.isValid_iff_exists_append.1 hvalid
  have hfirst : a.size = first.toByteArray.size := by
    simpa using congrArg String.Pos.Raw.byteIdx hfirst
  rw [String.toByteArray_append] at hbytes
  have ha := ByteArray.append_inj_left hbytes hfirst.symm
  rw [ha, ByteArray.append_right_inj] at hbytes
  refine ⟨first, last, rfl, ha, ?_⟩
  apply List.isPrefix_of_utf8Encode_append_eq_utf8Encode b
  rw [← hbytes, String.utf8Encode_toList]

/-- The byte of a line feed. -/
def lineFeed : UInt8 := 10

private theorem utf8Encode_lineFeed : ['\n'].utf8Encode = ⟨#[lineFeed]⟩ := by
  decide +kernel

theorem lineFeed_mem_toUTF8_iff {text : String} :
    lineFeed ∈ text.toUTF8.data ↔ '\n' ∈ text.toList := by
  constructor
  · intro h
    obtain ⟨a, b, heq⟩ := List.append_of_mem (Array.mem_toList_iff.2 h)
    have hbytes : text.toUTF8 = a.toByteArray ++ (['\n'].utf8Encode ++ b.toByteArray) := by
      rw [utf8Encode_lineFeed]
      ext1
      simpa [← Array.toList_inj] using heq
    obtain ⟨first, last, rfl, -, hlast⟩ := exists_append_of_toUTF8 (by simp) hbytes
    simp [hlast.subset (List.mem_singleton_self _)]
  · intro h
    obtain ⟨a, b, heq⟩ := List.append_of_mem h
    have hbytes : text.toUTF8 = a.utf8Encode ++ (['\n'].utf8Encode ++ b.utf8Encode) := by
      rw [String.toUTF8_eq_toByteArray, ← String.utf8Encode_toList, heq,
        ← List.utf8Encode_append, ← List.utf8Encode_append, List.singleton_append]
    rw [hbytes, utf8Encode_lineFeed]
    simp

/-! ## Lines of records -/

namespace Record

theorem exists_compact_eq (r : Record) : ∃ cs, r.toJson.compact.toList = '\x7b' :: cs := by
  simp [toJson, Json.objOf, Json.compact]

theorem toUTF8_line (r : Record) :
    r.line.toUTF8 = r.toJson.compact.toUTF8 ++ ⟨#[lineFeed]⟩ := by
  have hfeed : "\n".toUTF8 = ⟨#[lineFeed]⟩ := by decide +kernel
  rw [line, toUTF8_append, hfeed]

/-- The beginning of a line begins with a brace. -/
theorem exists_extract_compact_eq (r : Record) {n : Nat}
    (hne : r.toJson.compact.toUTF8.extract 0 n ≠ .empty) :
    ∃ rest, r.toJson.compact.toUTF8.extract 0 n = ['\x7b'].utf8Encode ++ rest := by
  obtain ⟨cs, hcs⟩ := r.exists_compact_eq
  have hbrace : r.toJson.compact.toUTF8 = ['\x7b'].utf8Encode ++ cs.utf8Encode := by
    rw [String.toUTF8_eq_toByteArray, ← String.utf8Encode_toList, hcs, ← List.utf8Encode_append,
      List.singleton_append]
  have hsize : ['\x7b'].utf8Encode.size = 1 := by decide +kernel
  have hpos : ['\x7b'].utf8Encode.size ≤ n := by
    rw [hsize, Nat.one_le_iff_ne_zero]
    rintro rfl
    exact hne ByteArray.extract_same
  refine ⟨cs.utf8Encode.extract 0 (n - 1), ?_⟩
  rw [hbrace, ByteArray.extract_append, ← Nat.max_eq_left hpos, ByteArray.extract_zero_max_size,
    Nat.max_eq_left hpos, hsize, Nat.zero_sub]

/-- A line is no record if something stands before the record in it. -/
theorem ofLine?_append_compact {p : List Char} {r : Record} (hr : r.InWords)
    (hp : Json.skipBlanks p ≠ []) :
    ofLine? (String.ofList (p ++ r.toJson.compact.toList)) = none := by
  have hread : Json.read? (String.ofList (p ++ r.toJson.compact.toList)) = none :=
    Json.read?_fragment (isWritable_toJson hr) rfl (by decide) (by decide) (by decide) hp
  rw [ofLine?, hread]
  rfl

end Record

namespace Journal

/-! ## What is left of lines -/

/-- What appends that failed have left behind the last line: the beginning of a line, or several
beginnings. -/
structure Remnant (tail : ByteArray) : Prop where
  lineFeed_notMem : lineFeed ∉ tail.data
  exists_brace : tail ≠ .empty → ∃ rest, tail = ['\x7b'].utf8Encode ++ rest

namespace Remnant

theorem empty : Remnant .empty where
  lineFeed_notMem := by simp
  exists_brace := fun h => absurd rfl h

/-- A part of another line is left. -/
theorem append_extract {tail : ByteArray} (h : Remnant tail) {r : Record} (hr : r.InWords) {n : Nat}
    (hn : n < r.line.toUTF8.size) : Remnant (tail ++ r.line.toUTF8.extract 0 n) := by
  rw [Record.toUTF8_line, ByteArray.size_append] at hn
  have hle : n ≤ r.toJson.compact.toUTF8.size := Nat.le_of_lt_succ hn
  have hpart : r.line.toUTF8.extract 0 n = r.toJson.compact.toUTF8.extract 0 n := by
    rw [Record.toUTF8_line, ByteArray.extract_append, Nat.zero_sub, Nat.sub_eq_zero_of_le hle,
      ByteArray.extract_same, ByteArray.append_empty]
  rw [hpart]
  constructor
  · have hbody : lineFeed ∉ r.toJson.compact.toUTF8.data :=
      mt lineFeed_mem_toUTF8_iff.1 (Json.lineFeed_notMem_compact _ (Record.isWritable_toJson hr))
    rw [ByteArray.data_append, Array.mem_append, not_or]
    refine ⟨h.lineFeed_notMem, fun hmem => hbody ?_⟩
    rw [← ByteArray.extract_zero_size (b := r.toJson.compact.toUTF8),
      ByteArray.extract_eq_extract_append_extract n (Nat.zero_le n) hle, ByteArray.data_append]
    exact Array.mem_append_left _ hmem
  · intro hne
    by_cases htail : tail = .empty
    · rw [htail, ByteArray.empty_append] at hne ⊢
      exact r.exists_extract_compact_eq hne
    · obtain ⟨rest, hrest⟩ := h.exists_brace htail
      exact ⟨rest ++ r.toJson.compact.toUTF8.extract 0 n, by rw [hrest, ByteArray.append_assoc]⟩

end Remnant

/-! ## Contents of files -/

/-- The last line of a file has no end. -/
def Unfinished (content : ByteArray) : Prop :=
  ∃ b ∈ content.data.back?, b ≠ lineFeed

/-- The file holds the lines of records, and maybe what failed appends have left behind them. -/
def Holds (content : ByteArray) (records : List Record) : Prop :=
  (∀ r ∈ records, r.InWords) ∧
    ∃ tail, Remnant tail ∧ content = (Record.lines records).toUTF8 ++ tail

/-- The file holds a line that is behind what failed appends have left. -/
def Spoiled (content : ByteArray) : Prop :=
  ∃ (records : List Record) (tail : ByteArray) (r : Record) (rest : ByteArray),
    Remnant tail ∧ tail ≠ .empty ∧ r.InWords ∧
      content = (Record.lines records).toUTF8 ++ (tail ++ (r.line.toUTF8 ++ rest))

theorem Spoiled.append {content : ByteArray} (h : Spoiled content) (more : ByteArray) :
    Spoiled (content ++ more) := by
  obtain ⟨records, tail, r, rest, htail, hne, hr, rfl⟩ := h
  exact ⟨records, tail, r, rest ++ more, htail, hne, hr, by simp only [ByteArray.append_assoc]⟩

theorem not_unfinished_append_line (content : ByteArray) (r : Record) :
    ¬ Unfinished (content ++ r.line.toUTF8) := by
  rintro ⟨b, hb, hne⟩
  rw [Record.toUTF8_line, ← ByteArray.append_assoc] at hb
  exact hne (by simpa using hb.symm)

theorem not_unfinished_lines (records : List Record) :
    ¬ Unfinished (Record.lines records).toUTF8 := by
  induction records using List.reverseRecOn with
  | nil =>
    rintro ⟨b, hb, -⟩
    cases hb
  | append_singleton records r _ =>
    have hlines : Record.lines (records ++ [r]) = Record.lines records ++ r.line := by
      simp [Record.lines]
    rw [hlines, toUTF8_append]
    exact not_unfinished_append_line _ r

theorem unfinished_append_iff {records : List Record} {tail : ByteArray} (h : Remnant tail) :
    Unfinished ((Record.lines records).toUTF8 ++ tail) ↔ tail ≠ .empty := by
  constructor
  · rintro hunfinished rfl
    rw [ByteArray.append_empty] at hunfinished
    exact not_unfinished_lines records hunfinished
  · intro hne
    have hback : tail.data.back? ≠ none := by
      rw [ne_eq, Array.back?_eq_none_iff]
      exact fun hempty => hne (ByteArray.ext hempty)
    obtain ⟨b, hb⟩ := Option.ne_none_iff_exists'.1 hback
    refine ⟨b, ?_, ?_⟩
    · simp [hb]
    · rintro rfl
      exact h.lineFeed_notMem (Array.mem_of_back? hb)

/-- A part of a line comes to the end of a file that holds records. Either an unfinished line stays
unfinished, and the file holds the record as well if the whole line was added. Or the line is behind
what failed appends have left, and the file is spoiled. -/
theorem Holds.append_extract {content : ByteArray} {records : List Record}
    (h : Holds content records) {r : Record} (hr : r.InWords) (n : Nat) :
    let after := content ++ r.line.toUTF8.extract 0 n
    ((Unfinished content → Unfinished after) ∧ ∃ more, Holds after (records ++ more) ∧
        (n = r.line.toUTF8.size → more = [r])) ∨
      (Unfinished content ∧ ¬ Unfinished after) ∧ Spoiled after := by
  obtain ⟨hrecords, tail, htail, rfl⟩ := h
  by_cases hn : n < r.line.toUTF8.size
  · have hpart := htail.append_extract hr hn
    refine .inl ⟨?_, [], ⟨by simpa using hrecords, _, hpart, ?_⟩, fun heq => ?_⟩
    · rw [ByteArray.append_assoc, unfinished_append_iff htail, unfinished_append_iff hpart]
      exact mt fun hempty => (ByteArray.append_eq_empty_iff.1 hempty).1
    · rw [List.append_nil, ByteArray.append_assoc]
    · exact absurd heq (Nat.ne_of_lt hn)
  · have hwhole : r.line.toUTF8.extract 0 n = r.line.toUTF8 := by
      rw [← Nat.max_eq_left (Nat.le_of_not_lt hn), ByteArray.extract_zero_max_size]
    have hafter := not_unfinished_append_line ((Record.lines records).toUTF8 ++ tail) r
    rw [hwhole]
    by_cases hne : tail = .empty
    · subst hne
      refine .inl ⟨fun h => ?_, [r], ⟨?_, .empty, .empty, ?_⟩, fun _ => rfl⟩
      · exact absurd rfl ((unfinished_append_iff .empty).1 h)
      · exact List.forall_mem_append.2 ⟨hrecords, List.forall_mem_singleton.2 hr⟩
      · rw [Record.lines_append, toUTF8_append, ByteArray.append_empty, ByteArray.append_empty]
        simp [Record.lines]
    · refine .inr ⟨⟨(unfinished_append_iff htail).2 hne, hafter⟩,
        records, tail, r, .empty, htail, hne, hr, ?_⟩
      rw [ByteArray.append_empty, ByteArray.append_assoc]

/-! ## Opening the file -/

/-- A file that holds records is opened with them if it is a text. -/
theorem Holds.exists_opened {content : ByteArray} {records : List Record}
    (h : Holds content records) (hvalid : content.IsValidUTF8) (file : String) :
    ∃ tornAt, opened file (some content) = .ok ⟨file, records, tornAt⟩ := by
  obtain ⟨hrecords, tail, htail, rfl⟩ := h
  rw [String.toUTF8_eq_toByteArray, ← String.utf8Encode_toList,
    isValidUTF8_utf8Encode_append] at hvalid
  obtain ⟨t, rfl⟩ : ∃ t : String, tail = t.toUTF8 := ⟨⟨tail, hvalid⟩, rfl⟩
  rw [← toUTF8_append, opened_text]
  by_cases hempty : t = ""
  · rw [hempty, String.append_empty]
    exact ⟨none, ofText_lines file hrecords⟩
  · exact ⟨_, ofText_lines_append file hrecords hempty
      (mt lineFeed_mem_toUTF8_iff.2 htail.lineFeed_notMem)⟩

/-- A line that is read and not blank is a record. -/
theorem exists_ofLine?_of_mem {n : Nat} {ls : List (List Char)} {records : List Record}
    (h : readLines n ls = .ok records) {l : List Char} (hl : l ∈ ls)
    (hblank : l.all Text.isBlank = false) : ∃ r, Record.ofLine? (String.ofList l) = some r := by
  have hmem := List.mem_map_of_mem (f := fun l => Record.ofLine? (String.ofList l))
    (List.mem_filter.2 ⟨hl, by simp [hblank]⟩ : l ∈ ls.filter fun l => !l.all Text.isBlank)
  rw [readLines_eq_ok_iff.1 h] at hmem
  obtain ⟨r, -, hr⟩ := List.mem_map.1 hmem
  exact ⟨r, hr.symm⟩

/-- The text of a file that is spoiled has a line that is a record with something before it. -/
theorem Spoiled.exists_line {text : String} (h : Spoiled text.toUTF8) :
    ∃ (p : List Char) (r : Record), r.InWords ∧ p.head? = some '\x7b' ∧
      p ++ r.toJson.compact.toList ∈ Text.lines (completePart text.toList) := by
  obtain ⟨records, tail, r, rest, htail, hne, hr, htext⟩ := h
  obtain ⟨more, hbrace⟩ := htail.exists_brace hne
  have hline : r.line.toUTF8 = r.line.toList.utf8Encode := (String.utf8Encode_toList).symm
  -- the line begins with a character, and so does what was left before it
  rw [← ByteArray.append_assoc, hline] at htext
  obtain ⟨first, last, rfl, hfirst, z, hz⟩ :=
    exists_append_of_toUTF8 (by simp [Record.toList_line]) htext
  rw [hbrace] at hfirst
  obtain ⟨lines, p, rfl, hlines, cs, hp⟩ := exists_append_of_toUTF8 (by simp) hfirst
  obtain rfl : lines = Record.lines records := String.toByteArray_inj.1 hlines
  rw [toUTF8_append, ByteArray.append_right_inj, ← hbrace] at hfirst
  have hfeed : '\n' ∉ p.toList ++ r.toJson.compact.toList := by
    rw [List.mem_append, not_or]
    exact ⟨mt lineFeed_mem_toUTF8_iff.2 (hfirst ▸ htail.lineFeed_notMem),
      Json.lineFeed_notMem_compact _ (Record.isWritable_toJson hr)⟩
  refine ⟨p.toList, r, hr, by rw [← hp]; rfl, ?_⟩
  have hends := Record.endsLine_lines records
  have hends' := Text.endsLine_concat (p.toList ++ r.toJson.compact.toList)
  have htext' : (Record.lines records ++ p ++ last).toList =
      (Record.lines records).toList ++ (p.toList ++ r.toJson.compact.toList ++ ['\n'] ++ z) := by
    rw [String.toList_append, String.toList_append, ← hz, Record.toList_line]
    simp only [List.append_assoc]
  rw [htext', completePart_of_endsLine hends, completePart_of_endsLine hends',
    Text.lines_append hends, Text.lines_append hends', Text.lines_concat hfeed]
  simp

/-- A file that is spoiled is not opened. -/
theorem Spoiled.opened_ne {content : ByteArray} (h : Spoiled content) (file : String)
    (j : Journal) : opened file (some content) ≠ .ok j := by
  intro hopened
  by_cases hvalid : content.IsValidUTF8
  · obtain ⟨text, rfl⟩ : ∃ text : String, content = text.toUTF8 := ⟨⟨content, hvalid⟩, rfl⟩
    obtain ⟨p, r, hr, hbrace, hmem⟩ := h.exists_line
    obtain ⟨cs, rfl⟩ := List.head?_eq_some_iff.1 hbrace
    rw [opened_text] at hopened
    obtain ⟨records, hread, -⟩ := ofText_eq_ok_iff.1 hopened
    have hblank : Text.isBlank '\x7b' = false := by decide
    obtain ⟨r', hr'⟩ := exists_ofLine?_of_mem hread hmem (by simp [hblank])
    rw [Record.ofLine?_append_compact hr (by simp [Json.skipBlanks, Json.isBlank])] at hr'
    cases hr'
  · rw [opened_of_not_isValidUTF8 file hvalid] at hopened
    cases hopened

end Journal

end Entitle
