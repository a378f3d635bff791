import Entitle.Json.Printer
import Entitle.Json.Reader
import Mathlib.Tactic.SplitIfs

/-!
# Written JSON read back

Both written forms of a value are read as that value again. They differ in nothing but the blanks
between the tokens, so a value is spelled in a layout here, and read back whatever the layout is.
Every kind of text has a lemma of the same shape: what is written, followed by anything that cannot
be a part of it, is read as what was written, and what follows is left.

## Main definitions

* `Json.isWritable`: no numeral but words of 64 bits, and nothing unreadable.
* `Json.Layout`, `Json.spell`: the blanks between tokens, and a value with such blanks.

## Main statements

* `Json.readString_escape`, `Json.readNumber_nat`: the literals.
* `Json.toList_compact`, `Json.toList_prettyAt`: the two written forms are layouts.
* `Json.read?_compact`, `Json.read?_pretty`: they are read as the value.
* `Json.lineFeed_notMem_compact`: the compact form of a value is on one line.

## Implementation notes

The readers of values go down a bound that is no part of the text, so the lemmas about values, items
and members are proved together by induction on the bound: twice the length of a text is enough for
it.
-/
namespace Entitle.Json

/-! ## Strings -/

/-- A character is written as a backslash with a letter, with hexadecimal digits, or as it is. -/
theorem escape_cases (c : Char) :
    (∃ e, escape c = ['\\', e] ∧ e ≠ 'u' ∧ simpleEscape? e = some c) ∨
    (c.toNat < 0x20 ∧ escape c =
      ['\\', 'u', '0', '0', Nat.digitChar (c.toNat / 16), Nat.digitChar (c.toNat % 16)]) ∨
    (0x20 ≤ c.toNat ∧ escape c = [c] ∧ c ≠ '"' ∧ c ≠ '\\') := by
  rw [escape]
  split_ifs with hquote hbackslash hn hr ht hb hf hcontrol
  · exact .inl ⟨'"', rfl, by decide, by rw [hquote]; rfl⟩
  · exact .inl ⟨'\\', rfl, by decide, by rw [hbackslash]; rfl⟩
  · exact .inl ⟨'n', rfl, by decide, by rw [hn]; rfl⟩
  · exact .inl ⟨'r', rfl, by decide, by rw [hr]; rfl⟩
  · exact .inl ⟨'t', rfl, by decide, by rw [ht]; rfl⟩
  · exact .inl ⟨'b', rfl, by decide, by rw [hb]; rfl⟩
  · exact .inl ⟨'f', rfl, by decide, by rw [hf]; rfl⟩
  · exact .inr (.inl ⟨hcontrol, rfl⟩)
  · exact .inr (.inr ⟨Nat.le_of_not_lt hcontrol, rfl, hquote, hbackslash⟩)

private theorem hexQuad?_digitChar {n : Nat} (h : n < 0x20) :
    hexQuad? '0' '0' (Nat.digitChar (n / 16)) (Nat.digitChar (n % 16)) = some n := by
  have key : ∀ m : Fin 0x20,
      hexQuad? '0' '0' (Nat.digitChar (m / 16)) (Nat.digitChar (m % 16)) = some m.val := by
    decide
  exact key ⟨n, h⟩

/-- A code unit that is no surrogate is a character of its own. -/
theorem textOfParts_unit {n : Nat} (h : n < 0xD800) (parts : List StringPart) :
    textOfParts (.unit n :: parts) = (textOfParts parts).map (Char.ofNat n :: ·) := by
  have hhigh : ¬ (0xD800 ≤ n ∧ n ≤ 0xDBFF) := by omega
  have hlow : ¬ (0xDC00 ≤ n ∧ n ≤ 0xDFFF) := by omega
  have hsurrogate : ¬ (0xD800 ≤ n ∧ n ≤ 0xDFFF) := by omega
  rcases parts with _ | ⟨c | m, parts⟩
  · simp [textOfParts, hsurrogate]
  · simp [textOfParts, hsurrogate]
  · simp [textOfParts, hhigh, hlow]

/-- The written form of a character is read as one part, which denotes the character. -/
theorem readParts_escape (c : Char) : ∃ part,
    (∀ cs, readParts (escape c ++ cs) =
      (readParts cs).map fun read => (part :: read.1, read.2)) ∧
    ∀ parts, textOfParts (part :: parts) = (textOfParts parts).map (c :: ·) := by
  obtain ⟨e, hescape, he, hsimple⟩ | ⟨hcontrol, hescape⟩ | ⟨hplain, hescape, hquote, hbackslash⟩ :=
    escape_cases c
  · refine ⟨.char c, fun cs => ?_, fun parts => rfl⟩
    rw [hescape, List.cons_append, List.cons_append, List.nil_append, readParts]
    · simp [hsimple]
    · simp [he]
  · refine ⟨.unit c.toNat, fun cs => ?_, fun parts => ?_⟩
    · simp [hescape, readParts, hexQuad?_digitChar hcontrol]
    · rw [textOfParts_unit (by omega), Char.ofNat_toNat]
  · refine ⟨.char c, fun cs => ?_, fun parts => rfl⟩
    rw [hescape, List.cons_append, List.nil_append, readParts]
    · have hread : ¬ (c.toNat < 0x20 ∨ c = '\\') := by simp [hbackslash, hplain]
      rw [if_neg hread]
    · exact hquote
    · simp [hbackslash]
    · simp [hbackslash]

/-- What is written between quotes is read as the text. -/
theorem readString_escape (cs rest : List Char) :
    readString (cs.flatMap escape ++ '"' :: rest) = some (some cs, rest) := by
  induction cs with
  | nil => rfl
  | cons c cs ih =>
    obtain ⟨part, hread, htext⟩ := readParts_escape c
    rw [readString] at ih ⊢
    rw [List.flatMap_cons, List.append_assoc, hread]
    generalize readParts (cs.flatMap escape ++ '"' :: rest) = read at ih ⊢
    cases read with
    | none => cases ih
    | some read =>
      simp only [Option.map_some, Option.some.injEq, Prod.mk.injEq] at ih ⊢
      rw [htext, ih.1, ih.2]
      exact ⟨rfl, rfl⟩

/-! ## Numbers -/

/-- The text does not go on with what could be a part of a numeral. -/
def EndsNumeral (cs : List Char) : Prop :=
  ∀ c ∈ cs.head?, c.isDigit = false ∧ c ≠ '.' ∧ c ≠ 'e' ∧ c ≠ 'E'

private theorem digits_append {ds cs : List Char} (hds : ∀ d ∈ ds, d.isDigit = true)
    (hcs : ∀ c ∈ cs.head?, c.isDigit = false) : digits (ds ++ cs) = (ds, cs) := by
  rw [digits, List.takeWhile_append_of_pos hds, List.dropWhile_append_of_pos hds]
  cases cs with
  | nil => simp
  | cons c cs =>
    have hc : c.isDigit = false := hcs c rfl
    simp [hc]

private theorem natOfDigits_toDigits (n : Nat) : natOfDigits (Nat.toDigits 10 n) = n :=
  Nat.ofDigitChars_toDigits (by decide) (by decide)

/-- A numeral that begins with a zero is zero. -/
theorem eq_zero_of_head?_toDigits {n : Nat} (h : (Nat.toDigits 10 n).head? = some '0') :
    n = 0 := by
  induction n using Nat.strongRecOn with
  | ind n ih =>
    by_cases hn : n < 10
    · rw [Nat.toDigits_of_lt_base hn] at h
      have key : ∀ m : Fin 10, Nat.digitChar m = '0' → m = 0 := by decide
      exact congrArg Fin.val (key ⟨n, hn⟩ (Option.some.inj h))
    · have hlong : 10 ≤ n := Nat.le_of_not_lt hn
      rw [Nat.toDigits_of_base_le (by decide) hlong, List.head?_append,
        List.head?_eq_some_head Nat.toDigits_ne_nil, Option.some_or,
        ← List.head?_eq_some_head] at h
      have hzero := ih (n / 10) (by omega) h
      omega

private theorem le_foldl_digits (n : Nat) (ds : List Char) :
    n ≤ ds.foldl (fun n d => 10 * n + digitValue d) n := by
  induction ds generalizing n with
  | nil => exact Nat.le_refl n
  | cons d ds ih => exact Nat.le_trans (by omega) (ih (10 * n + digitValue d))

/-- Digits that write a number below the bound are all taken. -/
theorem takeDigits_eq {bound n : Nat} {ds : List Char}
    (h : ds.foldl (fun n d => 10 * n + digitValue d) n < bound) :
    takeDigits bound n ds = (ds.foldl (fun n d => 10 * n + digitValue d) n, []) := by
  induction ds generalizing n with
  | nil => rfl
  | cons d ds ih =>
    rw [takeDigits, if_pos (Nat.lt_of_le_of_lt (le_foldl_digits _ ds) h)]
    exact ih h

private theorem nearestDouble_le (n : Nat) : nearestDouble n ≤ 2 * n := by
  rcases Nat.eq_zero_or_pos n with rfl | hn
  · decide
  · have hround : ∀ shift, roundShift n shift ≤ n / 2 ^ shift + 1 := by
      intro shift
      simp only [roundShift, Nat.one_shiftLeft]
      split <;> omega
    have hshift : 2 ^ (n.log2 + 1 - doublePrecision) ≤ n :=
      Nat.le_trans (Nat.pow_le_pow_right (by decide) (by simp only [doublePrecision]; omega))
        (Nat.log2_self_le (Nat.ne_of_gt hn))
    rw [nearestDouble, Nat.shiftLeft_eq]
    generalize n.log2 + 1 - doublePrecision = shift at hshift
    calc roundShift n shift * 2 ^ shift
        ≤ (n / 2 ^ shift + 1) * 2 ^ shift := Nat.mul_le_mul_right _ (hround shift)
      _ = n / 2 ^ shift * 2 ^ shift + 2 ^ shift := Nat.succ_mul ..
      _ ≤ n + n := Nat.add_le_add (Nat.div_mul_le_self ..) hshift
      _ = 2 * n := by omega

/-- A word is a numeral in the range. -/
theorem overflows_ofDigits {n : Nat} (hn : n < UInt64.size) :
    (Scaled.ofDigits (Nat.toDigits 10 n) [] 0).overflows = false := by
  have htake : takeDigits UInt64.size 0 (Nat.toDigits 10 n) = (n, []) := by
    have hdigits := natOfDigits_toDigits n
    rw [natOfDigits] at hdigits
    rw [takeDigits_eq (hdigits.symm ▸ hn), hdigits]
  have hone : nearestDouble 1 = 1 := by decide
  have hbound : 2 * UInt64.size < doubleBound := by decide
  have hnearest := nearestDouble_le n
  have hsmall : nearestDouble n < doubleBound := by omega
  simp only [Scaled.ofDigits, htake, takeDigits, List.length_nil]
  simp [Scaled.overflows, Scaled.exponentLimit, hone, hsmall]

/-- A word is read as itself. -/
theorem readNumber_nat {n : Nat} (hn : n < UInt64.size) {rest : List Char}
    (hrest : EndsNumeral rest) :
    readNumber ((toString n).toList ++ rest) = some (.nat n, rest) := by
  have hall : ∀ d ∈ Nat.toDigits 10 n, d.isDigit = true :=
    fun d hd => Nat.isDigit_of_mem_toDigits (by decide) (by decide) hd
  have hdigits : digits (Nat.toDigits 10 n ++ rest) = (Nat.toDigits 10 n, rest) :=
    digits_append hall fun c hc => (hrest c hc).1
  have hfirst : ¬ ((Nat.toDigits 10 n).isEmpty = true ∨
      (Nat.toDigits 10 n).head? = some '0' ∧ Nat.toDigits 10 n ≠ ['0']) := by
    rintro (hempty | ⟨hzero, hlong⟩)
    · exact Nat.toDigits_ne_nil (List.isEmpty_iff.1 hempty)
    · rw [eq_zero_of_head?_toDigits hzero] at hlong
      exact hlong rfl
  have hsign : ∀ more, Nat.toDigits 10 n ++ rest ≠ '-' :: more := by
    intro more h
    cases hds : Nat.toDigits 10 n with
    | nil => exact Nat.toDigits_ne_nil hds
    | cons d ds =>
      rw [hds, List.cons_append] at h
      have hminus := hall d (by simp [hds])
      rw [(List.cons.inj h).1] at hminus
      exact absurd hminus (by decide)
  have hexponent : readExponent rest = some ([], 0, rest) := by
    cases rest with
    | nil => rfl
    | cons c cs =>
      obtain ⟨-, -, he, hE⟩ := hrest c rfl
      simp [readExponent, he, hE]
  have htoList : (toString n).toList = Nat.toDigits 10 n := Nat.toList_repr
  rw [htoList, readNumber]
  · simp only [hdigits, if_neg hfirst]
    split
    · exact absurd rfl (hrest '.' rfl).2.1
    · simp [hexponent, overflows_ofDigits hn, natOfDigits_toDigits]
  · exact hsign

/-! ## Values -/

mutual

/-- The value can be written so that it is read as itself: its only numerals are words of 64 bits,
and nothing in it is unreadable. -/
def isWritable : Json → Bool
  | .nat n => decide (n < UInt64.size)
  | .numeral _ | .unreadable => false
  | .arr items => itemsWritable items
  | .obj members => membersWritable members
  | .null | .bool _ | .str _ => true

/-- All items can be written. -/
def itemsWritable : List Json → Bool
  | [] => true
  | j :: rest => j.isWritable && itemsWritable rest

/-- The values of all members can be written. -/
def membersWritable : List (String × Json) → Bool
  | [] => true
  | (_, j) :: rest => j.isWritable && membersWritable rest

end

theorem toList_quote (s : String) :
    (quote s).toList = '"' :: (s.toList.flatMap escape ++ ['"']) := by
  simp [quote]

/-! ### Layouts -/

/-- What stands between the tokens of a value: blanks before every item and member and after the
last of them, by the level of nesting, and blanks after a colon. -/
structure Layout where
  line : Nat → List Char
  gap : List Char
  line_blank : ∀ level, ∀ c ∈ line level, isBlank c = true
  gap_blank : ∀ c ∈ gap, isBlank c = true

/-- Nothing stands between the tokens. -/
def Layout.tight : Layout :=
  ⟨fun _ => [], [], by simp, by simp⟩

private theorem blank_newline (level : Nat) : ∀ c ∈ (newline level).toList, isBlank c = true := by
  intro c hc
  rw [newline, String.toList_ofList, List.mem_cons, List.mem_replicate] at hc
  obtain rfl | ⟨-, rfl⟩ := hc <;> rfl

/-- Every item and every member is on a line of its own. -/
def Layout.indented : Layout :=
  ⟨fun level => (newline level).toList, [' '], blank_newline, by simp [isBlank]⟩

variable (l : Layout)

mutual

/-- A value in a layout. -/
def spell (level : Nat) : Json → List Char
  | .arr [] => ['[', ']']
  | .arr items =>
    '[' :: (l.line (level + 1) ++ (spellItems (level + 1) items ++ (l.line level ++ [']'])))
  | .obj [] => ['\x7b', '\x7d']
  | .obj members =>
    '\x7b' :: (l.line (level + 1) ++ (spellMembers (level + 1) members ++
      (l.line level ++ ['\x7d'])))
  | .null => ['n', 'u', 'l', 'l']
  | .bool b => if b then ['t', 'r', 'u', 'e'] else ['f', 'a', 'l', 's', 'e']
  | .nat n => (toString n).toList
  | .numeral text => text.toList
  | .str s => (quote s).toList
  | .unreadable => ['n', 'u', 'l', 'l']

/-- Items in a layout, from the first one on. -/
def spellItems (level : Nat) : List Json → List Char
  | [] => []
  | [j] => spell level j
  | j :: rest => spell level j ++ ',' :: (l.line level ++ spellItems level rest)

/-- Members in a layout, from the first one on. -/
def spellMembers (level : Nat) : List (String × Json) → List Char
  | [] => []
  | [(k, j)] => '"' :: (k.toList.flatMap escape ++ '"' :: ':' :: (l.gap ++ spell level j))
  | (k, j) :: rest =>
    '"' :: (k.toList.flatMap escape ++ '"' :: ':' :: (l.gap ++ (spell level j ++
      ',' :: (l.line level ++ spellMembers level rest))))

end

variable {l}

@[simp] theorem Layout.tight_line (level : Nat) : Layout.tight.line level = [] := rfl

@[simp] theorem Layout.tight_gap : Layout.tight.gap = [] := rfl

@[simp] theorem Layout.indented_line (level : Nat) :
    Layout.indented.line level = (newline level).toList := rfl

@[simp] theorem Layout.indented_gap : Layout.indented.gap = [' '] := rfl

theorem spell_arr_cons (level : Nat) (j : Json) (more : List Json) :
    spell l level (.arr (j :: more)) = '[' :: (l.line (level + 1) ++
      (spellItems l (level + 1) (j :: more) ++ (l.line level ++ [']']))) := by
  simp [spell]

theorem spell_obj_cons (level : Nat) (m : String × Json) (more : List (String × Json)) :
    spell l level (.obj (m :: more)) = '\x7b' :: (l.line (level + 1) ++
      (spellMembers l (level + 1) (m :: more) ++ (l.line level ++ ['\x7d']))) := by
  simp [spell]

theorem spellItems_cons (level : Nat) (j k : Json) (rest : List Json) :
    spellItems l level (j :: k :: rest) =
      spell l level j ++ ',' :: (l.line level ++ spellItems l level (k :: rest)) := by
  simp [spellItems]

theorem spellMembers_cons (level : Nat) (k : String) (j : Json) (m : String × Json)
    (rest : List (String × Json)) :
    spellMembers l level ((k, j) :: m :: rest) =
      '"' :: (k.toList.flatMap escape ++ '"' :: ':' :: (l.gap ++ (spell l level j ++
        ',' :: (l.line level ++ spellMembers l level (m :: rest))))) := by
  simp [spellMembers]

mutual

/-- The compact form is the tight one, at any level. -/
theorem toList_compact (level : Nat) : (j : Json) → j.compact.toList = spell .tight level j
  | .null | .nat _ | .numeral _ | .str _ | .unreadable => by simp [compact, spell]
  | .bool b => by cases b <;> simp [compact, spell]
  | .arr [] => by simp [compact, compactItems, spell]
  | .arr (j :: more) => by
    simp [spell_arr_cons, compact, toList_compactItems (level + 1) (j :: more)]
  | .obj [] => by simp [compact, compactMembers, spell]
  | .obj (m :: more) => by
    simp [spell_obj_cons, compact, toList_compactMembers (level + 1) (m :: more)]

theorem toList_compactItems (level : Nat) :
    (items : List Json) → (compactItems items).toList = spellItems .tight level items
  | [] => by simp [compactItems, spellItems]
  | [j] => toList_compact level j
  | j :: k :: rest => by
    simp [spellItems_cons, compactItems, toList_compact level j,
      toList_compactItems level (k :: rest)]

theorem toList_compactMembers (level : Nat) : (members : List (String × Json)) →
    (compactMembers members).toList = spellMembers .tight level members
  | [] => by simp [compactMembers, spellMembers]
  | [(k, j)] => by
    simp [compactMembers, spellMembers, toList_quote, toList_compact level j]
  | (k, j) :: m :: rest => by
    simp [spellMembers_cons, compactMembers, toList_quote, toList_compact level j,
      toList_compactMembers level (m :: rest)]

end

mutual

/-- The indented form puts items and members on lines. -/
theorem toList_prettyAt (level : Nat) :
    (j : Json) → (prettyAt level j).toList = spell .indented level j
  | .null | .nat _ | .numeral _ | .str _ | .unreadable => by simp [prettyAt, spell]
  | .bool b => by cases b <;> simp [prettyAt, spell]
  | .arr [] => by simp [prettyAt, spell]
  | .arr (j :: more) => by
    simp [spell_arr_cons, prettyAt, toList_prettyItems (level + 1) (j :: more) (by simp)]
  | .obj [] => by simp [prettyAt, spell]
  | .obj (m :: more) => by
    simp [spell_obj_cons, prettyAt, toList_prettyMembers (level + 1) (m :: more) (by simp)]

theorem toList_prettyItems (level : Nat) : (items : List Json) → items ≠ [] →
    (prettyItems level items).toList = (newline level).toList ++ spellItems .indented level items
  | [], h => absurd rfl h
  | [j], _ => by simp [prettyItems, spellItems, toList_prettyAt level j]
  | j :: k :: rest, _ => by
    simp [spellItems_cons, prettyItems, toList_prettyAt level j,
      toList_prettyItems level (k :: rest) (by simp)]

theorem toList_prettyMembers (level : Nat) : (members : List (String × Json)) → members ≠ [] →
    (prettyMembers level members).toList =
      (newline level).toList ++ spellMembers .indented level members
  | [], h => absurd rfl h
  | [(k, j)], _ => by
    simp [prettyMembers, spellMembers, toList_quote, toList_prettyAt level j]
  | (k, j) :: m :: rest, _ => by
    simp [spellMembers_cons, prettyMembers, toList_quote, toList_prettyAt level j,
      toList_prettyMembers level (m :: rest) (by simp)]

end

/-! ### Reading -/

theorem skipBlanks_append {bs : List Char} (hbs : ∀ b ∈ bs, isBlank b = true) {c : Char}
    (hc : isBlank c = false) (cs : List Char) : skipBlanks (bs ++ c :: cs) = c :: cs := by
  rw [skipBlanks, List.dropWhile_append_of_pos hbs, List.dropWhile_cons_of_neg (by simp [hc])]

theorem skipBlanks_cons {c : Char} (hc : isBlank c = false) (cs : List Char) :
    skipBlanks (c :: cs) = c :: cs :=
  skipBlanks_append (List.forall_mem_nil (isBlank · = true)) hc cs

/-- No value begins with a blank or with the bracket after the items of an array. -/
theorem spell_eq_cons (l : Layout) (level : Nat) (j : Json) (h : j.isWritable = true) :
    ∃ c cs, spell l level j = c :: cs ∧ isBlank c = false ∧ c ≠ ']' := by
  cases j with
  | null => exact ⟨'n', _, rfl, by decide⟩
  | bool b => cases b with
    | false => exact ⟨'f', _, rfl, by decide⟩
    | true => exact ⟨'t', _, rfl, by decide⟩
  | nat n =>
    have hdigits : spell l level (nat n) = Nat.toDigits 10 n := by
      rw [spell]
      exact Nat.toList_repr
    cases hds : Nat.toDigits 10 n with
    | nil => exact absurd hds Nat.toDigits_ne_nil
    | cons d ds =>
      have hd : d.isDigit = true :=
        Nat.isDigit_of_mem_toDigits (by decide) (by decide) (hds ▸ List.mem_cons_self ..)
      have hne : ∀ c : Char, c.isDigit = false → d ≠ c := by
        rintro c hc rfl
        rw [hd] at hc
        cases hc
      refine ⟨d, ds, hdigits.trans hds, ?_, hne ']' rfl⟩
      simp [isBlank, hne ' ' rfl, hne '\t' rfl, hne '\n' rfl, hne '\r' rfl]
  | str s => exact ⟨'"', _, toList_quote s, by decide⟩
  | arr items =>
    cases items with
    | nil => exact ⟨'[', _, rfl, by decide⟩
    | cons i items => exact ⟨'[', _, spell_arr_cons level i items, by decide⟩
  | obj members =>
    cases members with
    | nil => exact ⟨'\x7b', _, rfl, by decide⟩
    | cons m members => exact ⟨'\x7b', _, spell_obj_cons level m members, by decide⟩
  | numeral text => cases h
  | unreadable => cases h

theorem endsNumeral_append {bs : List Char} (hbs : ∀ b ∈ bs, isBlank b = true) {c : Char}
    (hc : c = ',' ∨ c = ']' ∨ c = '\x7d') (cs : List Char) : EndsNumeral (bs ++ c :: cs) := by
  cases bs with
  | nil =>
    rintro d ⟨⟩
    rcases hc with rfl | rfl | rfl <;> decide
  | cons b bs =>
    rintro d ⟨⟩
    have hb := hbs b List.mem_cons_self
    simp only [isBlank, Bool.or_eq_true, beq_iff_eq] at hb
    rcases hb with ((rfl | rfl) | rfl) | rfl <;> decide

private theorem endsNumeral_cons {c : Char} (hc : c = ',' ∨ c = ']' ∨ c = '\x7d') (cs : List Char) :
    EndsNumeral (c :: cs) :=
  endsNumeral_append (List.forall_mem_nil (isBlank · = true)) hc cs

/-- What begins with a digit is a number. -/
theorem readValue_of_isDigit {d : Char} (hd : d.isDigit = true) (bound : Nat) (cs : List Char) :
    readValue (bound + 1) (d :: cs) = readNumber (d :: cs) := by
  rw [readValue]
  all_goals
    intro left h
    cases h
    exact absurd hd (by decide)

private theorem objOfKeys_of_some (members : List (String × Json)) :
    objOfKeys (members.map fun m => (some m.1, m.2)) = .obj members := by
  have h : members.mapM some = some members := by
    induction members with
    | nil => rfl
    | cons m rest ih => simp [ih]
  simp [objOfKeys, List.mapM_map, Function.comp_def, h]

private theorem spellItems_eq_cons (level : Nat) (j : Json) (more : List Json)
    (h : j.isWritable = true) :
    ∃ c cs, spellItems l level (j :: more) = c :: cs ∧ isBlank c = false ∧ c ≠ ']' := by
  obtain ⟨c, cs, hcs, hc⟩ := spell_eq_cons l level j h
  cases more with
  | nil => exact ⟨c, cs, hcs, hc⟩
  | cons k more =>
    rw [spellItems_cons, hcs]
    exact ⟨c, _, rfl, hc⟩

private theorem spellMembers_eq_cons (level : Nat) (m : String × Json)
    (more : List (String × Json)) :
    ∃ cs, spellMembers l level (m :: more) = '"' :: cs := by
  cases more with
  | nil => exact ⟨_, rfl⟩
  | cons m' more => exact ⟨_, spellMembers_cons level m.1 m.2 m' more⟩

/-- What is written is read back with a bound that is at least twice the length of the text. Blanks
may stand before the bracket or the brace at the end. -/
structure ReadsBack (l : Layout) (bound : Nat) : Prop where
  value : ∀ (level : Nat) (j : Json) (rest : List Char), j.isWritable = true → EndsNumeral rest →
    2 * (spell l level j).length ≤ bound →
      readValue bound (spell l level j ++ rest) = some (j, rest)
  items : ∀ (level : Nat) (j : Json) (more : List Json) (bs rest : List Char),
    itemsWritable (j :: more) = true → (∀ b ∈ bs, isBlank b = true) →
      2 * (spellItems l level (j :: more)).length + 1 ≤ bound →
      readItems bound (spellItems l level (j :: more) ++ (bs ++ ']' :: rest)) =
        some (j :: more, rest)
  members : ∀ (level : Nat) (m : String × Json) (more : List (String × Json))
    (bs rest : List Char), membersWritable (m :: more) = true → (∀ b ∈ bs, isBlank b = true) →
      2 * (spellMembers l level (m :: more)).length + 1 ≤ bound →
      readMembers bound (spellMembers l level (m :: more) ++ (bs ++ '\x7d' :: rest)) =
        some ((m :: more).map fun m => (some m.1, m.2), rest)

namespace ReadsBack

variable {bound : Nat} (h : ReadsBack l bound)
include h

private theorem value_arr {level : Nat} {i : Json} {items : List Json} {rest : List Char}
    (hitems : itemsWritable (i :: items) = true)
    (hbound : 2 * (spellItems l (level + 1) (i :: items)).length + 1 ≤ bound) :
    readValue (bound + 1) (spell l level (.arr (i :: items)) ++ rest) =
      some (.arr (i :: items), rest) := by
  obtain ⟨c, cs, hcs, hblank, hc⟩ :=
    spellItems_eq_cons (l := l) (level + 1) i items (Bool.and_eq_true_iff.1 hitems).1
  have hread := h.items (level + 1) i items (l.line level) rest hitems (l.line_blank level) hbound
  have hskip := skipBlanks_append (l.line_blank (level + 1)) hblank
    (cs ++ (l.line level ++ ']' :: rest))
  rw [hcs, List.cons_append] at hread
  simp only [spell_arr_cons, hcs, List.cons_append, List.append_assoc, List.nil_append, readValue,
    hskip]
  split
  · next left heq => exact absurd (List.cons.inj heq).1 hc
  · rw [hread]
    rfl

private theorem value_obj {level : Nat} {m : String × Json} {members : List (String × Json)}
    {rest : List Char} (hmembers : membersWritable (m :: members) = true)
    (hbound : 2 * (spellMembers l (level + 1) (m :: members)).length + 1 ≤ bound) :
    readValue (bound + 1) (spell l level (.obj (m :: members)) ++ rest) =
      some (.obj (m :: members), rest) := by
  obtain ⟨cs, hcs⟩ := spellMembers_eq_cons (l := l) (level + 1) m members
  have hread := h.members (level + 1) m members (l.line level) rest hmembers (l.line_blank level)
    hbound
  have hskip := skipBlanks_append (l.line_blank (level + 1)) (c := '"') rfl
    (cs ++ (l.line level ++ '\x7d' :: rest))
  rw [hcs, List.cons_append] at hread
  simp only [spell_obj_cons, hcs, List.cons_append, List.append_assoc, List.nil_append, readValue,
    hskip]
  change (readMembers bound _).map _ = _
  rw [hread, Option.map_some, objOfKeys_of_some]

theorem value_succ (level : Nat) (j : Json) (rest : List Char) (hj : j.isWritable = true)
    (hrest : EndsNumeral rest) (hbound : 2 * (spell l level j).length ≤ bound + 1) :
    readValue (bound + 1) (spell l level j ++ rest) = some (j, rest) := by
  cases j with
  | null => rfl
  | bool b => cases b <;> rfl
  | nat n =>
    have hread := readNumber_nat (of_decide_eq_true hj) hrest
    obtain ⟨d, ds, hds⟩ := List.exists_cons_of_ne_nil (Nat.toDigits_ne_nil (n := n) (b := 10))
    have htoList : (toString n).toList = d :: ds := Nat.toList_repr.trans hds
    have hd : d.isDigit = true :=
      Nat.isDigit_of_mem_toDigits (by decide) (by decide) (hds ▸ List.mem_cons_self ..)
    rw [spell]
    rw [htoList, List.cons_append] at hread ⊢
    rw [readValue_of_isDigit hd, hread]
  | str s => simp [spell, toList_quote, readValue, readString_escape]
  | arr items =>
    cases items with
    | nil => simp [spell, readValue, skipBlanks, isBlank]
    | cons i items =>
      simp only [spell_arr_cons, List.length_cons, List.length_append] at hbound
      exact h.value_arr hj (by omega)
  | obj members =>
    cases members with
    | nil => simp [spell, readValue, skipBlanks, isBlank]
    | cons m members =>
      simp only [spell_obj_cons, List.length_cons, List.length_append] at hbound
      exact h.value_obj hj (by omega)
  | numeral text => cases hj
  | unreadable => cases hj

theorem items_succ (level : Nat) (j : Json) (more : List Json) (bs rest : List Char)
    (hitems : itemsWritable (j :: more) = true) (hbs : ∀ b ∈ bs, isBlank b = true)
    (hbound : 2 * (spellItems l level (j :: more)).length + 1 ≤ bound + 1) :
    readItems (bound + 1) (spellItems l level (j :: more) ++ (bs ++ ']' :: rest)) =
      some (j :: more, rest) := by
  obtain ⟨hj, hmore⟩ := Bool.and_eq_true_iff.1 hitems
  cases more with
  | nil =>
    have hvalue := h.value level j (bs ++ ']' :: rest) hj
      (endsNumeral_append hbs (.inr (.inl rfl)) rest) (by simp only [spellItems] at hbound; omega)
    have hbracket := skipBlanks_append hbs (c := ']') rfl rest
    simp [readItems, spellItems, hvalue, hbracket]
  | cons k more =>
    obtain ⟨c, cs, hcs, hblank, -⟩ :=
      spellItems_eq_cons (l := l) level k more (Bool.and_eq_true_iff.1 hmore).1
    simp only [spellItems_cons, List.length_append, List.length_cons] at hbound
    have hvalue := h.value level j
      (',' :: (l.line level ++ (spellItems l level (k :: more) ++ (bs ++ ']' :: rest)))) hj
      (endsNumeral_cons (.inl rfl) _) (by omega)
    have hread := h.items level k more bs rest hmore hbs (by omega)
    have hskip := skipBlanks_append (l.line_blank level) hblank (cs ++ (bs ++ ']' :: rest))
    rw [← List.cons_append, ← hcs] at hskip
    simp only [spellItems_cons, List.cons_append, List.append_assoc, readItems, hvalue,
      skipBlanks_cons (c := ',') rfl, hskip, hread, Option.map_some]

theorem members_succ (level : Nat) (m : String × Json) (more : List (String × Json))
    (bs rest : List Char) (hmembers : membersWritable (m :: more) = true)
    (hbs : ∀ b ∈ bs, isBlank b = true)
    (hbound : 2 * (spellMembers l level (m :: more)).length + 1 ≤ bound + 1) :
    readMembers (bound + 1) (spellMembers l level (m :: more) ++ (bs ++ '\x7d' :: rest)) =
      some ((m :: more).map fun m => (some m.1, m.2), rest) := by
  obtain ⟨key, j⟩ := m
  obtain ⟨hj, hmore⟩ := Bool.and_eq_true_iff.1 hmembers
  -- after the key and the colon comes the value
  have hgap : ∀ after, skipBlanks (l.gap ++ (spell l level j ++ after)) =
      spell l level j ++ after := by
    intro after
    obtain ⟨c, cs, hcs, hblank, -⟩ := spell_eq_cons l level j hj
    rw [hcs, List.cons_append, skipBlanks_append l.gap_blank hblank]
  cases more with
  | nil =>
    simp only [spellMembers, List.length_cons, List.length_append] at hbound
    have hvalue := h.value level j (bs ++ '\x7d' :: rest) hj
      (endsNumeral_append hbs (.inr (.inr rfl)) rest) (by omega)
    have hbrace := skipBlanks_append hbs (c := '\x7d') rfl rest
    simp only [spellMembers, List.cons_append, List.append_assoc, readMembers, readString_escape,
      skipBlanks_cons (c := ':') rfl, hgap, hvalue, hbrace, Option.map_some, String.ofList_toList,
      List.map_cons, List.map_nil]
  | cons m more =>
    simp only [spellMembers_cons, List.length_cons, List.length_append] at hbound
    obtain ⟨cs, hcs⟩ := spellMembers_eq_cons (l := l) level m more
    have hvalue := h.value level j
      (',' :: (l.line level ++ (spellMembers l level (m :: more) ++ (bs ++ '\x7d' :: rest)))) hj
      (endsNumeral_cons (.inl rfl) _) (by omega)
    have hread := h.members level m more bs rest hmore hbs (by omega)
    have hskip := skipBlanks_append (l.line_blank level) (c := '"') rfl
      (cs ++ (bs ++ '\x7d' :: rest))
    rw [← List.cons_append, ← hcs] at hskip
    simp only [spellMembers_cons, List.cons_append, List.append_assoc, readMembers,
      readString_escape, skipBlanks_cons (c := ':') rfl, skipBlanks_cons (c := ',') rfl, hgap,
      hvalue, hskip, hread, Option.map_some, String.ofList_toList, List.map_cons]

end ReadsBack

theorem readsBack (l : Layout) (bound : Nat) : ReadsBack l bound := by
  induction bound with
  | zero =>
    refine ⟨fun level j rest hj _ hbound => ?_, fun _ _ _ _ _ _ _ hbound => ?_,
      fun _ _ _ _ _ _ _ hbound => ?_⟩
    · obtain ⟨c, cs, hcs, -⟩ := spell_eq_cons l level j hj
      rw [hcs, List.length_cons] at hbound
      omega
    · omega
    · omega
  | succ bound ih => exact ⟨ih.value_succ, ih.items_succ, ih.members_succ⟩

/-- A text that is a value in a layout, with blanks after it, is read as the value. -/
theorem read?_of_spell (l : Layout) {j : Json} (h : j.isWritable = true) {text : String}
    (bs : List Char) (htext : text.toList = spell l 0 j ++ bs) (hbs : ∀ b ∈ bs, isBlank b = true) :
    read? text = some j := by
  obtain ⟨c, cs, hcs, hc, -⟩ := spell_eq_cons l 0 j h
  have hskip : skipBlanks text.toList = spell l 0 j ++ bs := by
    rw [htext, hcs, List.cons_append, skipBlanks_cons hc]
  have hends : EndsNumeral bs := by
    intro b hb
    have := endsNumeral_append hbs (.inl rfl) []
    cases bs with
    | nil => cases hb
    | cons b bs => exact this _ hb
  have hvalue := (readsBack l (2 * (spell l 0 j ++ bs).length + 2)).value 0 j bs h hends
    (by rw [List.length_append]; omega)
  have hrest : skipBlanks bs = [] := by
    rw [skipBlanks, ← List.append_nil bs, List.dropWhile_append_of_pos hbs, List.dropWhile_nil]
  rw [read?]
  simp only [hskip, hvalue, hrest]
  rfl

/-- The compact form of a value is read as the value. -/
theorem read?_compact {j : Json} (h : j.isWritable = true) : read? j.compact = some j :=
  read?_of_spell .tight h [] (by rw [toList_compact 0, List.append_nil]) (by simp)

/-- The indented form of a value is read as the value, also with a line feed after it. -/
theorem read?_pretty {j : Json} (h : j.isWritable = true) : read? (j.pretty ++ "\n") = some j :=
  read?_of_spell .indented h ['\n']
    (by rw [pretty, String.toList_append, toList_prettyAt]; rfl) (by simp [isBlank])

/-! ## Lines -/

theorem lineFeed_notMem_escape (c : Char) : '\n' ∉ escape c := by
  obtain ⟨e, hescape, he, hsimple⟩ | ⟨hcontrol, hescape⟩ | ⟨hplain, hescape, -, -⟩ := escape_cases c
  · have hne : e ≠ '\n' := by
      rintro rfl
      cases hsimple
    simp [hescape, hne.symm]
  · have key : ∀ m : Fin 16, '\n' ≠ Nat.digitChar m := by decide
    have hhigh := key ⟨c.toNat / 16, by omega⟩
    have hlow := key ⟨c.toNat % 16, by omega⟩
    simp only at hhigh hlow
    simp [hescape, hhigh, hlow]
  · have hne : c ≠ '\n' := by
      rintro rfl
      exact absurd hplain (by decide)
    simp [hescape, hne.symm]

theorem lineFeed_notMem_quote (s : String) : '\n' ∉ (quote s).toList := by
  simp [toList_quote, lineFeed_notMem_escape]

mutual

theorem lineFeed_notMem_spell (level : Nat) :
    (j : Json) → j.isWritable = true → '\n' ∉ spell .tight level j
  | .null, _ | .bool true, _ | .bool false, _ => by simp [spell]
  | .nat n, _ => by
    intro hmem
    rw [spell, show (toString n).toList = Nat.toDigits 10 n from Nat.toList_repr] at hmem
    exact absurd (Nat.isDigit_of_mem_toDigits (by decide) (by decide) hmem) (by decide)
  | .str s, _ => by
    rw [spell]
    exact lineFeed_notMem_quote s
  | .arr [], _ => by simp [spell]
  | .arr (j :: more), h => by
    simp [spell_arr_cons, lineFeed_notMem_spellItems (level + 1) (j :: more) h]
  | .obj [], _ => by simp [spell]
  | .obj (m :: more), h => by
    simp [spell_obj_cons, lineFeed_notMem_spellMembers (level + 1) (m :: more) h]

theorem lineFeed_notMem_spellItems (level : Nat) :
    (items : List Json) → itemsWritable items = true → '\n' ∉ spellItems .tight level items
  | [], _ => by simp [spellItems]
  | [j], h => lineFeed_notMem_spell level j (Bool.and_eq_true_iff.1 h).1
  | j :: k :: rest, h => by
    obtain ⟨hj, hrest⟩ := Bool.and_eq_true_iff.1 h
    simp [spellItems_cons, lineFeed_notMem_spell level j hj,
      lineFeed_notMem_spellItems level (k :: rest) hrest]

theorem lineFeed_notMem_spellMembers (level : Nat) : (members : List (String × Json)) →
    membersWritable members = true → '\n' ∉ spellMembers .tight level members
  | [], _ => by simp [spellMembers]
  | [(key, j)], h => by
    simp [spellMembers, lineFeed_notMem_escape,
      lineFeed_notMem_spell level j (Bool.and_eq_true_iff.1 h).1]
  | (key, j) :: m :: rest, h => by
    obtain ⟨hj, hrest⟩ := Bool.and_eq_true_iff.1 h
    simp [spellMembers_cons, lineFeed_notMem_escape, lineFeed_notMem_spell level j hj,
      lineFeed_notMem_spellMembers level (m :: rest) hrest]

end

/-- The compact form of a value is on one line. -/
theorem lineFeed_notMem_compact (j : Json) (h : j.isWritable = true) : '\n' ∉ j.compact.toList := by
  rw [toList_compact 0]
  exact lineFeed_notMem_spell 0 j h

end Entitle.Json
