import Entitle.Proofs.Lines
import Entitle.Script.Source

/-!
# Normal forms of texts

The normal form of a text has no carriage returns, no blanks at the end of a line, no blank lines at
its end, and one line feed behind it. These texts are exactly those that are their own normal form.
Read from the back, each character of a text changes the lines of the normal form in a way that only
depends on these lines. So what does not change the lines behind it does not change the normal form
either: blanks before a line feed, blanks and line feeds at the end.

## Main definitions

* `Text.IsNormal`: the texts in normal form.
* `Text.withBreaks`: a text with other line breaks.
* `Text.Padded`: a text with blanks added at the ends of its lines.
* `Text.Respaced`: the changes that the normal form does not show.

## Main statements

* `Text.normalForm_eq_self_iff`: texts in normal form are their own normal form.
* `Text.keptLines_cons`: what a character does to the lines behind it.
* `Text.normalForm_canonical`: the normal form is canonical.
-/
namespace Entitle.Text

variable {c : Char} {cs cs' line blanks : List Char} {ls : List (List Char)}

/-! ## Line breaks -/

theorem unifyBreaks_eq_self (h : '\r' ∉ cs) : unifyBreaks cs = cs := by
  induction cs with
  | nil => rfl
  | cons c cs ih =>
    obtain ⟨hc, hcs⟩ := not_or.1 (mt List.mem_cons.2 h)
    rw [unifyBreaks_cons (Ne.symm hc), ih hcs]

/-- The text with a break in the place of each line feed. -/
def withBreaks (separator : List Char) (cs : List Char) : List Char :=
  cs.flatMap fun c => if c = '\n' then separator else [c]

private theorem withBreaks_cons (separator : List Char) (c : Char) (cs : List Char) :
    withBreaks separator (c :: cs) =
      (if c = '\n' then separator else [c]) ++ withBreaks separator cs :=
  List.flatMap_cons

private theorem unifyBreaks_withBreaks_crlf (h : '\r' ∉ cs) :
    unifyBreaks (withBreaks ['\r', '\n'] cs) = cs := by
  induction cs with
  | nil => rfl
  | cons c cs ih =>
    obtain ⟨hc, hcs⟩ := not_or.1 (mt List.mem_cons.2 h)
    rw [withBreaks_cons]
    by_cases hbreak : c = '\n'
    · rw [if_pos hbreak, List.cons_append, List.singleton_append, unifyBreaks, ih hcs, hbreak]
    · rw [if_neg hbreak, List.singleton_append, unifyBreaks_cons (Ne.symm hc), ih hcs]

private theorem unifyBreaks_withBreaks_cr (h : '\r' ∉ cs) :
    unifyBreaks (withBreaks ['\r'] cs) = cs := by
  -- no line feed is left that could be taken for a part of a break
  have hfeed : ∀ cs : List Char, '\n' ∉ withBreaks ['\r'] cs := by
    intro cs hmem
    obtain ⟨c, -, hc⟩ := List.mem_flatMap.1 hmem
    split at hc
    · cases List.mem_singleton.1 hc
    · next hne => exact hne (List.mem_singleton.1 hc).symm
  induction cs with
  | nil => rfl
  | cons c cs ih =>
    obtain ⟨hc, hcs⟩ := not_or.1 (mt List.mem_cons.2 h)
    rw [withBreaks_cons]
    by_cases hbreak : c = '\n'
    · rw [if_pos hbreak, List.singleton_append, unifyBreaks_cr (hfeed cs), ih hcs, hbreak]
    · rw [if_neg hbreak, List.singleton_append, unifyBreaks_cons (Ne.symm hc), ih hcs]

/-! ## Lines -/

private theorem not_mem_of_mem_lines (h : line ∈ lines cs) : '\n' ∉ line := by
  induction cs generalizing line with
  | nil => cases h
  | cons c cs ih =>
    rw [lines] at h
    split at h
    · rcases List.mem_cons.1 h with rfl | h
      · exact List.not_mem_nil
      · exact ih h
    · next hc =>
      split at h
      · rw [List.mem_singleton.1 h, List.mem_singleton]
        exact Ne.symm hc
      · next first more hlines =>
        rcases List.mem_cons.1 h with rfl | h
        · rw [List.mem_cons, not_or]
          exact ⟨Ne.symm hc, ih (hlines ▸ List.mem_cons_self)⟩
        · exact ih (hlines ▸ List.mem_cons_of_mem _ h)

/-- A line has no characters of its own. -/
theorem mem_of_mem_lines (h : line ∈ lines cs) (hc : c ∈ line) : c ∈ cs := by
  induction cs generalizing line with
  | nil => cases h
  | cons d cs ih =>
    rw [lines] at h
    split at h
    · rcases List.mem_cons.1 h with rfl | h
      · cases hc
      · exact List.mem_cons_of_mem _ (ih h hc)
    · split at h
      · rw [List.mem_singleton.1 h, List.mem_singleton] at hc
        exact hc ▸ List.mem_cons_self
      · next first more hlines =>
        rcases List.mem_cons.1 h with rfl | h
        · rcases List.mem_cons.1 hc with rfl | hc
          · exact List.mem_cons_self
          · exact List.mem_cons_of_mem _ (ih (hlines ▸ List.mem_cons_self) hc)
        · exact List.mem_cons_of_mem _ (ih (hlines ▸ List.mem_cons_of_mem _ h) hc)

/-- Lines that end with line feeds are read as these lines. -/
theorem lines_flatMap (hls : ∀ l ∈ ls, '\n' ∉ l) : lines (ls.flatMap (· ++ ['\n'])) = ls := by
  induction ls with
  | nil => rfl
  | cons l ls ih =>
    obtain ⟨hl, hls⟩ := List.forall_mem_cons.1 hls
    rw [List.flatMap_cons, lines_append (endsLine_concat l), lines_concat hl, ih hls]
    rfl

/-- Complete lines are made of their lines and line feeds. -/
theorem flatMap_lines (h : EndsLine cs) : (lines cs).flatMap (· ++ ['\n']) = cs := by
  induction cs with
  | nil => rfl
  | cons c cs ih =>
    rw [lines]
    split
    · next hc => rw [List.flatMap_cons, ih h.of_cons, hc]; rfl
    · next hc =>
      have hcs : cs ≠ [] := by
        rintro rfl
        exact hc (h c rfl)
      obtain ⟨line, more, hlines⟩ := List.exists_cons_of_ne_nil (lines_ne_nil hcs)
      have ih := ih h.of_cons
      rw [hlines, List.flatMap_cons] at ih
      rw [hlines, List.flatMap_cons, List.cons_append, List.cons_append, ih]

private theorem intercalate_append (hne : ls ≠ []) :
    ['\n'].intercalate ls ++ ['\n'] = ls.flatMap (· ++ ['\n']) := by
  induction ls with
  | nil => exact absurd rfl hne
  | cons l ls ih =>
    cases ls with
    | nil => simp
    | cons l' ls =>
      rw [List.intercalate_cons_cons, List.append_assoc, ih (by simp)]
      rfl

/-! ## Texts in normal form -/

/-- A text in normal form: there are no carriage returns, no line ends in a blank, exactly one line
feed is at the end, and the last line is not blank unless it is all there is. -/
structure IsNormal (text : String) : Prop where
  unified : '\r' ∉ text.toList
  trimmed : ∀ line ∈ lines text.toList, ∀ c ∈ line.getLast?, isBlank c = false
  ended : ∃ body, text.toList = body ++ ['\n'] ∧ ∀ c ∈ body.getLast?, c ≠ '\n'
  filled : ∀ line ∈ (lines text.toList).getLast?, line.all isBlank = true → text = "\n"

theorem dropEndWhile_eq_self {α : Type} {p : α → Bool} {xs : List α}
    (h : ∀ x ∈ xs.getLast?, p x = false) : dropEndWhile p xs = xs := by
  have happend : dropEndWhile p (xs ++ []) = xs := dropEndWhile_append h (by simp)
  rwa [List.append_nil] at happend

private theorem mem_of_mem_dropEndWhile {α : Type} {p : α → Bool} {xs : List α} {x : α}
    (h : x ∈ dropEndWhile p xs) : x ∈ xs := by
  obtain ⟨-, ys, hxs, -⟩ := exists_dropEndWhile p xs
  rw [hxs]
  exact List.mem_append_left _ h

/-- The lines that are left of a text when blanks at the end of lines, and then blank lines at the
end of the text, are taken away. -/
def keptLines (cs : List Char) : List (List Char) :=
  dropEndWhile List.isEmpty ((lines cs).map trimEnd)

theorem normalLines_eq (cs : List Char) : normalLines cs = keptLines (unifyBreaks cs) := rfl

private theorem toList_normalForm (text : String) : (normalForm text).toList =
    ['\n'].intercalate (keptLines (unifyBreaks text.toList)) ++ ['\n'] :=
  String.toList_ofList

/-- A line that is kept is a line of the text without the blanks at its end. -/
theorem exists_of_mem_keptLines (h : line ∈ keptLines cs) :
    ∃ l ∈ lines cs, line = trimEnd l := by
  obtain ⟨l, hl, rfl⟩ := List.mem_map.1 (mem_of_mem_dropEndWhile h)
  exact ⟨l, hl, rfl⟩

private theorem getLast?_keptLines : ∀ line ∈ (keptLines cs).getLast?, line ≠ [] := by
  intro line hline
  have hfilled : line.isEmpty = false := (exists_dropEndWhile List.isEmpty _).1 line hline
  simpa using hfilled

/-- A line that does not end in a blank is empty or not blank. -/
theorem eq_nil_of_all_isBlank (htrim : ∀ c ∈ line.getLast?, isBlank c = false)
    (h : line.all isBlank = true) : line = [] := by
  cases hlast : line.getLast? with
  | none => exact List.getLast?_eq_none_iff.1 hlast
  | some c =>
    have hblank := List.all_eq_true.1 h c (List.mem_of_getLast? hlast)
    rw [htrim c hlast] at hblank
    cases hblank

private theorem isNormal_lineFeed : IsNormal "\n" where
  unified := by decide +kernel
  trimmed := by
    intro line hline
    have hlines : lines "\n".toList = [[]] := by decide +kernel
    rw [hlines, List.mem_singleton] at hline
    subst hline
    exact nofun
  ended := ⟨[], rfl, nofun⟩
  filled := fun _ _ _ => rfl

/-- The normal form of any text is in normal form. -/
theorem isNormal_normalForm (text : String) : IsNormal (normalForm text) := by
  have hlist := toList_normalForm text
  have hmem : ∀ l ∈ keptLines (unifyBreaks text.toList), ∀ c ∈ l, c ≠ '\r' ∧ c ≠ '\n' := by
    intro line hline c hc
    obtain ⟨l, hl, rfl⟩ := exists_of_mem_keptLines hline
    have hc := mem_of_mem_dropEndWhile hc
    exact ⟨ne_of_mem_of_not_mem (mem_of_mem_lines hl hc) (not_mem_unifyBreaks _),
      ne_of_mem_of_not_mem hc (not_mem_of_mem_lines hl)⟩
  have hlast : ∀ l ∈ (keptLines (unifyBreaks text.toList)).getLast?, l ≠ [] :=
    getLast?_keptLines
  have htrim : ∀ l ∈ keptLines (unifyBreaks text.toList), ∀ c ∈ l.getLast?, isBlank c = false := by
    intro line hline
    obtain ⟨l, -, rfl⟩ := exists_of_mem_keptLines hline
    exact (exists_dropEndWhile isBlank l).1
  generalize keptLines (unifyBreaks text.toList) = kept at *
  rcases List.eq_nil_or_concat kept with rfl | ⟨front, last, hkept⟩
  · have hform : normalForm text = "\n" := by
      rw [← String.toList_inj, hlist]
      rfl
    exact hform ▸ isNormal_lineFeed
  rw [List.concat_eq_append] at hkept
  subst hkept
  have hlast : last ≠ [] := hlast last (by simp)
  rw [intercalate_append (by simp)] at hlist
  have hlines : lines (normalForm text).toList = front ++ [last] := by
    rw [hlist, lines_flatMap fun l hl hfeed => (hmem l hl _ hfeed).2 rfl]
  refine ⟨fun hcr => ?_, hlines ▸ htrim,
    ⟨front.flatMap (· ++ ['\n']) ++ last, by rw [hlist]; simp, fun c hc => ?_⟩,
    fun line hline hblank => ?_⟩
  · rw [hlist] at hcr
    obtain ⟨l, hl, hcr⟩ := List.mem_flatMap.1 hcr
    rcases List.mem_append.1 hcr with hcr | hcr
    · exact (hmem l hl _ hcr).1 rfl
    · cases List.mem_singleton.1 hcr
  · rw [List.getLast?_append, Option.or_of_isSome (List.getLast?_isSome.2 hlast)] at hc
    exact (hmem last (by simp) c (List.mem_of_getLast? hc)).2
  · rw [hlines, List.getLast?_concat, Option.mem_some_iff] at hline
    subst hline
    exact absurd (eq_nil_of_all_isBlank (htrim _ (by simp)) hblank) hlast

/-- Texts in normal form are exactly those that are their own normal form. -/
theorem normalForm_eq_self_iff {text : String} : normalForm text = text ↔ IsNormal text := by
  refine ⟨fun h => h ▸ isNormal_normalForm text, fun h => ?_⟩
  by_cases hempty : text = "\n"
  · subst hempty
    decide +kernel
  obtain ⟨body, hbody, -⟩ := h.ended
  have htrim : (lines text.toList).map trimEnd = lines text.toList := by
    refine (List.map_congr_left fun line hline => ?_).trans (List.map_id _)
    exact dropEndWhile_eq_self (h.trimmed line hline)
  have hkept : keptLines text.toList = lines text.toList := by
    rw [keptLines, htrim]
    refine dropEndWhile_eq_self fun line hline => ?_
    by_contra hnil
    obtain rfl : line = [] := by simpa using hnil
    exact hempty (h.filled [] hline rfl)
  have hends : EndsLine text.toList := hbody ▸ endsLine_concat body
  rw [← String.toList_inj, toList_normalForm, unifyBreaks_eq_self h.unified, hkept,
    intercalate_append (lines_ne_nil (by simp [hbody])), flatMap_lines hends]

/-- A line without blanks at its end, with a line feed behind it, is in normal form. -/
theorem isNormal_line {text : String} (hcr : '\r' ∉ text.toList) (hfeed : '\n' ∉ text.toList)
    (htrim : ∀ c ∈ text.toList.getLast?, isBlank c = false) : IsNormal (text ++ "\n") := by
  have hlist : (text ++ "\n").toList = text.toList ++ ['\n'] := String.toList_append
  have hlines : lines (text ++ "\n").toList = [text.toList] := by rw [hlist, lines_concat hfeed]
  refine ⟨?_, ?_, ⟨text.toList, hlist, ?_⟩, fun line hline hblank => ?_⟩
  · rw [hlist, List.mem_append, not_or]
    exact ⟨hcr, by decide⟩
  · rw [hlines]
    exact List.forall_mem_singleton.2 htrim
  · rintro c hc rfl
    exact hfeed (List.mem_of_getLast? hc)
  · rw [hlines, List.getLast?_singleton, Option.mem_some_iff] at hline
    rw [← hline] at hblank
    have hnil := eq_nil_of_all_isBlank htrim hblank
    rw [← String.toList_inj, hlist, hnil]
    rfl

/-! ## From the back to the front -/

/-- It does not matter for what is dropped if the end was dropped behind a member before. -/
theorem dropEndWhile_cons_dropEndWhile {α : Type} (p : α → Bool) (x : α) (xs : List α) :
    dropEndWhile p (x :: dropEndWhile p xs) = dropEndWhile p (x :: xs) := by
  rw [dropEndWhile, dropEndWhile_eq_self (exists_dropEndWhile p xs).1]
  rfl

private theorem tail_dropEndWhile {α : Type} (p : α → Bool) (x : α) (xs : List α) :
    (dropEndWhile p (x :: xs)).tail = dropEndWhile p xs := by
  rw [dropEndWhile]
  split
  · next hnil =>
    rw [hnil]
    split <;> rfl
  · rfl

/-- The first line is the same when blank lines at the end are dropped, where no line counts as an
empty one. -/
theorem headD_dropEndWhile (line : List Char) (ls : List (List Char)) :
    (dropEndWhile List.isEmpty (line :: ls)).headD [] = line := by
  rw [dropEndWhile]
  split
  · split
    · next hempty => exact (List.isEmpty_iff.1 hempty).symm
    · rfl
  · rfl

/-- What a character does to the lines behind it. -/
def prepend (c : Char) (ls : List (List Char)) : List (List Char) :=
  dropEndWhile List.isEmpty
    (if c = '\n' then [] :: ls else trimEnd (c :: ls.headD []) :: ls.tail)

/-- The lines that are kept are found from the back of the text to its front, one character at a
time. -/
theorem keptLines_cons (c : Char) (cs : List Char) :
    keptLines (c :: cs) = prepend c (keptLines cs) := by
  rw [keptLines, keptLines, prepend, lines]
  split
  · rw [dropEndWhile_cons_dropEndWhile]
    rfl
  · cases lines cs with
    | nil => rfl
    | cons line more =>
      have htrim : trimEnd (c :: trimEnd line) = trimEnd (c :: line) :=
        dropEndWhile_cons_dropEndWhile isBlank c line
      rw [List.map_cons, List.map_cons, headD_dropEndWhile, tail_dropEndWhile,
        dropEndWhile_cons_dropEndWhile, htrim]

private theorem trimEnd_singleton (hc : isBlank c = true) : trimEnd [c] = [] :=
  dropEndWhile_eq_nil (List.forall_mem_singleton.2 hc)

/-- Blanks and line feeds at the end of a text are not kept. -/
theorem keptLines_append (cs : List Char) (h : ∀ c ∈ blanks, isBlank c = true) :
    keptLines (cs ++ blanks) = keptLines cs := by
  induction cs with
  | nil =>
    rw [List.nil_append]
    induction blanks with
    | nil => rfl
    | cons c blanks ih =>
      obtain ⟨hc, hblanks⟩ := List.forall_mem_cons.1 h
      rw [keptLines_cons, ih hblanks, prepend]
      split
      · rfl
      · exact congrArg (dropEndWhile List.isEmpty [·]) (trimEnd_singleton hc)
  | cons c cs ih => rw [List.cons_append, keptLines_cons, keptLines_cons, ih]

/-- Blanks before a line feed are not kept. -/
theorem keptLines_append_lineFeed (h : ∀ c ∈ blanks, isBlank c = true ∧ c ≠ '\n')
    (cs : List Char) : keptLines (blanks ++ '\n' :: cs) = keptLines ('\n' :: cs) := by
  induction blanks with
  | nil => rfl
  | cons c blanks ih =>
    obtain ⟨⟨hc, hfeed⟩, hblanks⟩ := List.forall_mem_cons.1 h
    rw [List.cons_append, keptLines_cons, ih hblanks, prepend, if_neg hfeed]
    -- the line that the blanks stand on is empty, so they are trimmed
    have hhead : (keptLines ('\n' :: cs)).headD [] = [] := headD_dropEndWhile ..
    rw [hhead, trimEnd_singleton hc]
    have htail : (keptLines ('\n' :: cs)).tail = keptLines cs := tail_dropEndWhile ..
    rw [htail, keptLines_cons, prepend, if_pos rfl]

/-! ## Changes that the normal form does not show -/

/-- A blank that does not break a line. -/
def IsPadding (c : Char) : Prop :=
  isBlank c = true ∧ c ≠ '\r' ∧ c ≠ '\n'

instance : DecidablePred IsPadding := fun c =>
  inferInstanceAs (Decidable (isBlank c = true ∧ c ≠ '\r' ∧ c ≠ '\n'))

/-- The text with blanks before some of its line feeds and at its end. -/
inductive Padded : List Char → List Char → Prop
  | done {blanks : List Char} (h : ∀ c ∈ blanks, IsPadding c) : Padded [] blanks
  | next (c : Char) {cs cs' : List Char} (h : Padded cs cs') : Padded (c :: cs) (c :: cs')
  | line {blanks cs cs' : List Char} (hblanks : ∀ c ∈ blanks, IsPadding c) (h : Padded cs cs') :
    Padded ('\n' :: cs) (blanks ++ '\n' :: cs')

/-- A text without carriage returns with other line breaks throughout, with blanks at the ends of
its lines, or with line feeds at its end. -/
inductive Respaced (cs : List Char) : List Char → Prop
  | crlf : Respaced cs (withBreaks ['\r', '\n'] cs)
  | cr : Respaced cs (withBreaks ['\r'] cs)
  | padded {cs' : List Char} (h : Padded cs cs') : Respaced cs cs'
  | lineFeeds (n : Nat) : Respaced cs (cs ++ List.replicate n '\n')

theorem Padded.not_mem (h : Padded cs cs') (hcs : '\r' ∉ cs) : '\r' ∉ cs' := by
  induction h with
  | done h => exact fun hmem => (h _ hmem).2.1 rfl
  | next c _ ih =>
    rw [List.mem_cons, not_or] at *
    exact ⟨hcs.1, ih hcs.2⟩
  | line hblanks _ ih =>
    rw [List.mem_append, List.mem_cons, not_or, not_or]
    exact ⟨fun hmem => (hblanks _ hmem).2.1 rfl, by decide, ih (mt (List.mem_cons_of_mem _) hcs)⟩

theorem Padded.keptLines_eq (h : Padded cs cs') : keptLines cs' = keptLines cs := by
  induction h with
  | @done blanks h => exact keptLines_append [] fun c hc => (h c hc).1
  | next c _ ih => rw [keptLines_cons, keptLines_cons, ih]
  | line hblanks _ ih =>
    rw [keptLines_append_lineFeed fun c hc => ⟨(hblanks c hc).1, (hblanks c hc).2.2⟩,
      keptLines_cons, keptLines_cons, ih]

theorem Respaced.normalLines_eq (h : Respaced cs cs') (hcs : '\r' ∉ cs) :
    normalLines cs' = normalLines cs := by
  rw [Text.normalLines_eq, Text.normalLines_eq, unifyBreaks_eq_self hcs]
  cases h with
  | crlf => rw [unifyBreaks_withBreaks_crlf hcs]
  | cr => rw [unifyBreaks_withBreaks_cr hcs]
  | padded h => rw [unifyBreaks_eq_self (h.not_mem hcs), h.keptLines_eq]
  | lineFeeds n =>
    have hfeeds : ∀ c ∈ List.replicate n '\n', c = '\n' := fun c hc =>
      List.eq_of_mem_replicate hc
    have hcr : '\r' ∉ cs ++ List.replicate n '\n' := by
      rw [List.mem_append, not_or]
      exact ⟨hcs, fun hmem => absurd (hfeeds _ hmem) (by decide)⟩
    rw [unifyBreaks_eq_self hcr, keptLines_append cs fun c hc => by rw [hfeeds c hc]; decide]

/-- The normal form of a line without blanks at its end is the line with a line feed. -/
theorem normalForm_line {text : String} (hcr : '\r' ∉ text.toList) (hfeed : '\n' ∉ text.toList)
    (htrim : ∀ c ∈ text.toList.getLast?, isBlank c = false) : normalForm text = text ++ "\n" := by
  have hlist : (text ++ "\n").toList = text.toList ++ List.replicate 1 '\n' :=
    String.toList_append
  have hlines : normalLines (text ++ "\n").toList = normalLines text.toList :=
    (hlist ▸ Respaced.lineFeeds 1 : Respaced text.toList (text ++ "\n").toList).normalLines_eq hcr
  calc normalForm text
      = normalForm (text ++ "\n") := by rw [normalForm, normalForm, hlines]
    _ = text ++ "\n" := normalForm_eq_self_iff.2 (isNormal_line hcr hfeed htrim)

/-- The normal form is canonical. It is its own normal form, it is in normal form, and it is the
same for a text and for any that only differs from it in the kind of line breaks, in blanks at the
ends of lines or in line feeds at the end. So are the source and the checksum of a script. -/
theorem normalForm_canonical (text : String) :
    normalForm (normalForm text) = normalForm text ∧ IsNormal (normalForm text) ∧
    ('\r' ∉ text.toList → ∀ text' : String, Respaced text.toList text'.toList →
      normalForm text' = normalForm text ∧
      ∀ identity, Script.ofText identity text' = Script.ofText identity text) := by
  have hnormal := isNormal_normalForm text
  refine ⟨normalForm_eq_self_iff.2 hnormal, hnormal, fun hcr text' h => ?_⟩
  have hform : normalForm text' = normalForm text := by
    rw [normalForm, normalForm, h.normalLines_eq hcr]
  refine ⟨hform, fun identity => ?_⟩
  rw [Script.ofText, Script.ofText, Script.checksumOf, Script.checksumOf, hform]

/-- Blanks at the ends of lines, some of them line separators elsewhere, do not make another
text. -/
theorem normalForm_canonical_padded :
    let text := String.ofList ['a', ' ', 'b', '\n', '\n', 'c']
    let text' := String.ofList
      ['a', ' ', 'b', '\t', '\u2003', '\n', '\u2028', '\n', 'c', '\x0b', ' ']
    '\r' ∉ text.toList ∧ Respaced text.toList text'.toList ∧ normalForm text' = "a b\n\nc\n" ∧
      Script.ofText "s" text' = Script.ofText "s" text := by
  intro text text'
  have hcr : '\r' ∉ text.toList := by
    rw [String.toList_ofList]
    decide
  have hpadded : Padded text.toList text'.toList := by
    rw [String.toList_ofList, String.toList_ofList]
    refine .next 'a' <| .next ' ' <| .next 'b' <| @Padded.line ['\t', '\u2003'] _ _ ?_ <|
      @Padded.line ['\u2028'] _ _ ?_ <| .next 'c' <| @Padded.done ['\x0b', ' '] ?_
    all_goals
      simp only [List.forall_mem_cons, List.not_mem_nil, false_implies, implies_true, and_true]
      decide +kernel
  obtain ⟨-, -, hsame⟩ := normalForm_canonical text
  obtain ⟨hform, hscript⟩ := hsame hcr text' (.padded hpadded)
  exact ⟨hcr, .padded hpadded, hform.trans (by decide +kernel), hscript "s"⟩

end Entitle.Text
