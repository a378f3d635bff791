import Entitle.Proofs.Spelling

/-!
# Values behind a fragment

What is left of a value that was not written to its end is a fragment. When another value is written
behind it, the text is no value, whatever the fragment is: if the fragment ends within a string, the
string ends with the first quote of the other value, and a key cannot follow there; everything else
that the fragment has opened stays open.

## Main definitions

* `Json.Passes`: a rest of a text before which there is no opening brace.
* `Json.ReadsFragment`: where reading stops when an object stands behind a fragment.

## Main statements

* `Json.readValue_of_le`: a text that is read is read with every greater bound.
* `Json.read?_fragment`: a fragment with an object behind it is no value.
-/
namespace Entitle.Json

/-! ## Greater bounds -/

/-- What is read with a bound is read with the next one. -/
structure ReadsMore (bound : Nat) : Prop where
  value : ∀ {cs x}, readValue bound cs = some x → readValue (bound + 1) cs = some x
  items : ∀ {cs x}, readItems bound cs = some x → readItems (bound + 1) cs = some x
  members : ∀ {cs x}, readMembers bound cs = some x → readMembers (bound + 1) cs = some x

namespace ReadsMore

variable {bound : Nat} (h : ReadsMore bound) {cs : List Char}
include h

theorem value_succ {x : Json × List Char} (hread : readValue (bound + 1) cs = some x) :
    readValue (bound + 2) cs = some x := by
  rw [readValue.eq_def] at hread ⊢
  simp only at hread ⊢
  split at hread
  · split at hread
    · exact hread
    · obtain ⟨y, hy, rfl⟩ := Option.map_eq_some_iff.1 hread
      rw [h.members hy]
      rfl
  · split at hread
    · exact hread
    · obtain ⟨y, hy, rfl⟩ := Option.map_eq_some_iff.1 hread
      rw [h.items hy]
      rfl
  all_goals exact hread

theorem items_succ {x : List Json × List Char} (hread : readItems (bound + 1) cs = some x) :
    readItems (bound + 2) cs = some x := by
  rw [readItems] at hread ⊢
  cases hfirst : readValue bound cs with
  | none =>
    rw [hfirst] at hread
    cases hread
  | some first =>
    rw [h.value hfirst]
    rw [hfirst] at hread
    simp only at hread ⊢
    split at hread
    · exact hread
    · obtain ⟨y, hy, rfl⟩ := Option.map_eq_some_iff.1 hread
      rw [h.items hy]
      rfl
    · cases hread

theorem members_succ {x : List (Option String × Json) × List Char}
    (hread : readMembers (bound + 1) cs = some x) : readMembers (bound + 2) cs = some x := by
  rw [readMembers.eq_def] at hread ⊢
  simp only at hread ⊢
  split at hread
  · cases hkey : readString _ with
    | none =>
      rw [hkey] at hread
      cases hread
    | some key =>
      rw [hkey] at hread
      simp only at hread ⊢
      split at hread
      · next afterColon _ =>
        cases hmember : readValue bound (skipBlanks afterColon) with
        | none =>
          rw [hmember] at hread
          cases hread
        | some member =>
          rw [h.value hmember]
          rw [hmember] at hread
          simp only at hread ⊢
          split at hread
          · exact hread
          · obtain ⟨y, hy, rfl⟩ := Option.map_eq_some_iff.1 hread
            rw [h.members hy]
            rfl
          · cases hread
      · cases hread
  · cases hread

end ReadsMore

private theorem readsMore (bound : Nat) : ReadsMore bound := by
  induction bound with
  | zero => exact ⟨nofun, nofun, nofun⟩
  | succ bound ih => exact ⟨ih.value_succ, ih.items_succ, ih.members_succ⟩

/-- A text that is read is read with every greater bound. -/
theorem readValue_of_le {bound bound' : Nat} (hle : bound ≤ bound') {cs : List Char}
    {x : Json × List Char} (h : readValue bound cs = some x) : readValue bound' cs = some x := by
  induction hle with
  | refl => exact h
  | step _ ih => exact (readsMore _).value ih

/-! ## What is read up to a brace -/

/-- A rest of a text before which there is no opening brace. -/
def Passes (cs left : List Char) : Prop :=
  ∃ taken, cs = taken ++ left ∧ '\x7b' ∉ taken

namespace Passes

variable {cs left : List Char}

theorem refl (cs : List Char) : Passes cs cs := ⟨[], rfl, by simp⟩

theorem cons {c : Char} (hc : c ≠ '\x7b') (h : Passes cs left) : Passes (c :: cs) left := by
  obtain ⟨taken, rfl, htaken⟩ := h
  exact ⟨c :: taken, rfl, by simp [htaken, hc.symm]⟩

theorem trans {mid : List Char} (h : Passes cs mid) (h' : Passes mid left) : Passes cs left := by
  obtain ⟨taken, rfl, htaken⟩ := h
  obtain ⟨more, rfl, hmore⟩ := h'
  exact ⟨taken ++ more, by simp, by simp [htaken, hmore]⟩

theorem dropWhile {f : Char → Bool} (hf : f '\x7b' = false) (cs : List Char) :
    Passes cs (cs.dropWhile f) := by
  refine ⟨cs.takeWhile f, List.takeWhile_append_dropWhile.symm, fun h => ?_⟩
  have hbrace := List.all_eq_true.1 List.all_takeWhile _ h
  rw [hf] at hbrace
  cases hbrace

/-- It begins before every opening brace of the text. -/
theorem suffix {p y : List Char} (h : Passes (p ++ '\x7b' :: y) left) :
    '\x7b' :: y <:+ left := by
  obtain ⟨taken, heq, htaken⟩ := h
  obtain ⟨more, rfl, hy⟩ | ⟨more, rfl, rfl⟩ := List.append_eq_append_iff.1 heq
  · cases more with
    | nil => exact ⟨[], by simpa using hy⟩
    | cons d more =>
      obtain ⟨rfl, -⟩ := List.cons.inj hy
      simp at htaken
  · exact ⟨more, rfl⟩

end Passes

private theorem hexQuad?_brace {a b c d : Char} {n : Nat} (h : hexQuad? a b c d = some n) :
    '\x7b' ∉ [a, b, c, d] := by
  have hbrace : hexValue? '\x7b' = none := by decide
  intro hmem
  simp only [hexQuad?, Option.bind_eq_bind, Option.bind_eq_some_iff] at h
  obtain ⟨_, ha, _, hb, _, hc, _, hd, -⟩ := h
  simp only [List.mem_cons, List.not_mem_nil, or_false] at hmem
  obtain rfl | rfl | rfl | rfl := hmem <;> simp_all

section

variable {c : Char} {x p left : List Char}

private theorem readParts_fragment {parts : List StringPart}
    (h : readParts (p ++ '\x7b' :: '"' :: c :: x) = some (parts, left)) :
    '\x7b' :: '"' :: c :: x <:+ left ∨ left = c :: x := by
  generalize hcs : p ++ '\x7b' :: '"' :: c :: x = cs at h
  fun_induction readParts cs generalizing p parts with
  | case1 => simp at hcs
  | case2 rest =>
    cases h
    exact .inl (Passes.suffix (hcs ▸ (Passes.refl _).cons (by decide)))
  | case3 => cases h
  | case4 a b d e rest n hn ih =>
    obtain ⟨⟨more, left'⟩, hread, heq⟩ := Option.map_eq_some_iff.1 h
    cases heq
    have hpasses : Passes ('\\' :: 'u' :: a :: b :: d :: e :: rest) rest :=
      ⟨'\\' :: 'u' :: [a, b, d, e], rfl, by simpa using hexQuad?_brace hn⟩
    obtain ⟨p', rfl⟩ := Passes.suffix (hcs ▸ hpasses)
    exact ih rfl hread
  | case5 => cases h
  | case6 e rest _ d he ih =>
    obtain ⟨⟨more, left'⟩, hread, heq⟩ := Option.map_eq_some_iff.1 h
    cases heq
    have hbrace : e ≠ '\x7b' := by
      rintro rfl
      cases he
    have hpasses : Passes ('\\' :: e :: rest) rest := ((Passes.refl _).cons hbrace).cons (by decide)
    obtain ⟨p', rfl⟩ := Passes.suffix (hcs ▸ hpasses)
    exact ih rfl hread
  | case7 => cases h
  | case8 d rest _ _ _ _ ih =>
    obtain ⟨⟨more, left'⟩, hread, heq⟩ := Option.map_eq_some_iff.1 h
    cases heq
    cases p with
    | nil =>
      -- the string goes on with the brace, and the quote behind it ends it
      obtain ⟨-, rfl⟩ := List.cons.inj hcs
      cases hread
      exact .inr rfl
    | cons e p => exact ih (List.cons.inj hcs).2 hread

theorem passes_digits (cs : List Char) : Passes cs (digits cs).2 :=
  .dropWhile (by decide) cs

private theorem passes_readExponent {cs text : List Char} {n : Int}
    (h : readExponent cs = some (text, n, left)) : Passes cs left := by
  cases cs with
  | nil =>
    cases h
    exact .refl _
  | cons e rest =>
    rw [readExponent.eq_def] at h
    split at h
    · next heq => cases heq
    · next e' rest' heq =>
      cases heq
      split at h
      · next he =>
        have hbrace : e ≠ '\x7b' := by
          rintro rfl
          revert he
          decide
        split at h
        next sign unsigned hsign =>
        have hunsigned : Passes rest unsigned := by
          split at hsign
          · split at hsign
            · next hs =>
              cases hsign
              refine .cons ?_ (.refl _)
              rintro rfl
              revert hs
              decide
            · cases hsign
              exact .refl _
          · cases hsign
            exact .refl _
        have hleft := (hunsigned.trans (passes_digits unsigned)).cons hbrace
        simp only at h
        split_ifs at h <;> (cases h; exact hleft)
      · cases h
        exact .refl _

private theorem passes_readNumber {cs : List Char} {j : Json} (h : readNumber cs = some (j, left)) :
    Passes cs left := by
  rw [readNumber.eq_def] at h
  split at h
  next sign unsigned hsign =>
  have hunsigned : Passes cs unsigned := by
    split at hsign
    · cases hsign
      exact .cons (by decide) (.refl _)
    · cases hsign
      exact .refl _
  simp only at h
  split at h
  · cases h
  · have hwhole := hunsigned.trans (passes_digits unsigned)
    split at h
    · next rest hrest =>
      rw [hrest] at hwhole
      simp only at h
      split at h
      · cases h
      · split at h
        · cases h
        · next hexponent =>
          cases h
          exact hwhole.trans (((passes_digits rest).cons (by decide)).trans
            (passes_readExponent hexponent))
    · simp only at h
      split at h
      · cases h
      · split at h
        · cases h
        · next hexponent =>
          cases h
          exact hwhole.trans (passes_readExponent hexponent)

/-! ## Values -/

theorem suffix_skipBlanks (p y : List Char) :
    '\x7b' :: y <:+ skipBlanks (p ++ '\x7b' :: y) :=
  (Passes.dropWhile (by decide) _).suffix

/-- Behind what was read comes a mark, and so the mark is in the fragment. -/
theorem suffix_of_mark (hblank : isBlank c = false) {mark : Char} {more : List Char}
    (hmark : mark ≠ '\x7b') (hc : c ≠ mark)
    (hleft : '\x7b' :: '"' :: c :: x <:+ left ∨ left = c :: x)
    (hmore : skipBlanks left = mark :: more) : '\x7b' :: '"' :: c :: x <:+ more := by
  obtain ⟨p', rfl⟩ | rfl := hleft
  · have hpasses : Passes (mark :: more) more := (Passes.refl more).cons hmark
    rw [← hmore] at hpasses
    exact ((Passes.dropWhile (by decide) _).trans hpasses).suffix
  · rw [skipBlanks_cons hblank] at hmore
    exact absurd (List.cons.inj hmore).1 hc

/-- Where reading a text stops in which a value stands behind a fragment. -/
structure ReadsFragment (c : Char) (x : List Char) (bound : Nat) : Prop where
  value : ∀ {p left : List Char} {j : Json},
    readValue bound (p ++ '\x7b' :: '"' :: c :: x) = some (j, left) →
      '\x7b' :: '"' :: c :: x <:+ left ∨ left = c :: x ∨ p = [] ∧ left = []
  items : ∀ {p left : List Char} {js : List Json},
    readItems bound (p ++ '\x7b' :: '"' :: c :: x) = some (js, left) →
      '\x7b' :: '"' :: c :: x <:+ left
  members : ∀ {p left : List Char} {ms : List (Option String × Json)},
    readMembers bound (p ++ '\x7b' :: '"' :: c :: x) = some (ms, left) →
      '\x7b' :: '"' :: c :: x <:+ left

namespace ReadsFragment

variable {bound : Nat} (h : ReadsFragment c x bound)
include h

theorem value_succ {d : Char} {j : Json}
    (hread : readValue (bound + 1) (d :: (p ++ '\x7b' :: '"' :: c :: x)) = some (j, left)) :
    '\x7b' :: '"' :: c :: x <:+ left ∨ left = c :: x := by
  have hpasses : ∀ taken, d :: (p ++ '\x7b' :: '"' :: c :: x) = taken ++ left →
      '\x7b' ∉ taken → '\x7b' :: '"' :: c :: x <:+ left :=
    fun _ heq hbrace => Passes.suffix (p := d :: p) ⟨_, heq, hbrace⟩
  obtain ⟨p', hskip⟩ := suffix_skipBlanks p ('"' :: c :: x)
  rw [readValue.eq_def] at hread
  simp only at hread
  split at hread
  · next heq =>
    cases heq
    rw [← hskip] at hread
    split at hread
    · next heq =>
      cases hread
      exact .inl (Passes.suffix ⟨['\x7d'], heq, by decide⟩)
    · obtain ⟨⟨ms, left'⟩, hmembers, heq⟩ := Option.map_eq_some_iff.1 hread
      cases heq
      exact .inl (h.members hmembers)
  · next heq =>
    cases heq
    rw [← hskip] at hread
    split at hread
    · next heq =>
      cases hread
      exact .inl (Passes.suffix ⟨[']'], heq, by decide⟩)
    · obtain ⟨⟨js, left'⟩, hitems, heq⟩ := Option.map_eq_some_iff.1 hread
      cases heq
      exact .inl (h.items hitems)
  · next heq =>
    cases heq
    obtain ⟨⟨text, left'⟩, hstring, heq⟩ := Option.map_eq_some_iff.1 hread
    cases heq
    obtain ⟨⟨parts, left'⟩, hparts, heq⟩ := Option.map_eq_some_iff.1 hstring
    cases heq
    exact readParts_fragment hparts
  · next heq =>
    cases hread
    exact .inl (hpasses ['t', 'r', 'u', 'e'] heq (by decide))
  · next heq =>
    cases hread
    exact .inl (hpasses ['f', 'a', 'l', 's', 'e'] heq (by decide))
  · next heq =>
    cases hread
    exact .inl (hpasses ['n', 'u', 'l', 'l'] heq (by decide))
  · exact .inl (Passes.suffix (p := d :: p) (passes_readNumber hread))

/-- The same behind a value. -/
theorem value_of_mark (hblank : isBlank c = false) {j : Json} {mark : Char} {more : List Char}
    (hmark : mark ≠ '\x7b') (hc : c ≠ mark)
    (hread : readValue bound (p ++ '\x7b' :: '"' :: c :: x) = some (j, left))
    (hmore : skipBlanks left = mark :: more) : '\x7b' :: '"' :: c :: x <:+ more := by
  obtain hleft | hleft | ⟨-, rfl⟩ := h.value hread
  · exact suffix_of_mark hblank hmark hc (.inl hleft) hmore
  · exact suffix_of_mark hblank hmark hc (.inr hleft) hmore
  · cases hmore

theorem items_succ (hblank : isBlank c = false) (hc : c ∉ [',', ':', ']', '\x7d']) {js : List Json}
    (hread : readItems (bound + 1) (p ++ '\x7b' :: '"' :: c :: x) = some (js, left)) :
    '\x7b' :: '"' :: c :: x <:+ left := by
  simp only [List.mem_cons, List.not_mem_nil, or_false, not_or] at hc
  rw [readItems] at hread
  split at hread
  · cases hread
  · next j rest hfirst =>
    split at hread
    · next hrest =>
      cases hread
      exact h.value_of_mark hblank (by decide) hc.2.2.1 hfirst hrest
    · next more hrest =>
      obtain ⟨p', rfl⟩ := h.value_of_mark hblank (by decide) hc.1 hfirst hrest
      obtain ⟨q, hskip⟩ := suffix_skipBlanks p' ('"' :: c :: x)
      rw [← hskip] at hread
      obtain ⟨⟨js', left'⟩, hitems, heq⟩ := Option.map_eq_some_iff.1 hread
      cases heq
      exact h.items hitems
    · cases hread

theorem members_succ (hblank : isBlank c = false) (hc : c ∉ [',', ':', ']', '\x7d'])
    {ms : List (Option String × Json)}
    (hread : readMembers (bound + 1) (p ++ '\x7b' :: '"' :: c :: x) = some (ms, left)) :
    '\x7b' :: '"' :: c :: x <:+ left := by
  simp only [List.mem_cons, List.not_mem_nil, or_false, not_or] at hc
  rw [readMembers.eq_def] at hread
  simp only at hread
  split at hread
  · next afterQuote heq =>
    obtain ⟨p', rfl⟩ := Passes.suffix ⟨['"'], heq, by decide⟩
    split at hread
    · cases hread
    · next key afterKey hkey =>
      obtain ⟨⟨parts, left'⟩, hparts, heq⟩ := Option.map_eq_some_iff.1 hkey
      cases heq
      split at hread
      · next afterColon hcolon =>
        obtain ⟨q, rfl⟩ := suffix_of_mark hblank (by decide) hc.2.1
          (readParts_fragment hparts) hcolon
        obtain ⟨q', hskip⟩ := suffix_skipBlanks q ('"' :: c :: x)
        rw [← hskip] at hread
        split at hread
        · cases hread
        · next j rest hvalue =>
          split at hread
          · next hrest =>
            cases hread
            exact h.value_of_mark hblank (by decide) hc.2.2.2 hvalue hrest
          · next more hrest =>
            obtain ⟨q'', rfl⟩ := h.value_of_mark hblank (by decide) hc.1 hvalue hrest
            obtain ⟨q, hskip⟩ := suffix_skipBlanks q'' ('"' :: c :: x)
            rw [← hskip] at hread
            obtain ⟨⟨ms', left'⟩, hmembers, heq⟩ := Option.map_eq_some_iff.1 hread
            cases heq
            exact h.members hmembers
          · cases hread
      · cases hread
  · cases hread

end ReadsFragment

private theorem readsFragment (hblank : isBlank c = false) (hc : c ∉ [',', ':', ']', '\x7d'])
    (hwhole : ∀ {bound j left}, readValue bound ('\x7b' :: '"' :: c :: x) = some (j, left) →
      left = []) (bound : Nat) : ReadsFragment c x bound := by
  induction bound with
  | zero => exact ⟨nofun, nofun, nofun⟩
  | succ bound ih =>
    refine ⟨fun {p left j} hread => ?_, ih.items_succ hblank hc, ih.members_succ hblank hc⟩
    cases p with
    | nil => exact .inr (.inr ⟨rfl, hwhole hread⟩)
    | cons d p => exact (ih.value_succ hread).imp_right .inl

end

/-- The text of an object, whatever the bound, is read to its end. -/
theorem eq_nil_of_readValue_compact {j j' : Json} (hj : j.isWritable = true) {bound : Nat}
    {left : List Char} (h : readValue bound j.compact.toList = some (j', left)) : left = [] := by
  have hread := (readsBack .tight (max bound (2 * j.compact.toList.length))).value 0 j [] hj
    (by simp [EndsNumeral]) (by rw [← toList_compact 0]; exact Nat.le_max_right ..)
  rw [List.append_nil, ← toList_compact 0, readValue_of_le (Nat.le_max_left ..) h] at hread
  cases hread
  rfl

/-- A fragment with an object behind it is no value, if the first key of the object begins with a
character that stands for itself and is no mark of JSON. -/
theorem read?_fragment {key : String} {c : Char} {cs : List Char} {v : Json}
    {members : List (String × Json)}
    (hwritable : (Json.obj ((key, v) :: members)).isWritable = true) (hkey : key.toList = c :: cs)
    (hescape : escape c = [c]) (hblank : isBlank c = false) (hc : c ∉ [',', ':', ']', '\x7d'])
    {p : List Char} (hp : skipBlanks p ≠ []) :
    read? (String.ofList (p ++ (Json.obj ((key, v) :: members)).compact.toList)) = none := by
  obtain ⟨x, hx⟩ : ∃ x, (Json.obj ((key, v) :: members)).compact.toList =
      '\x7b' :: '"' :: c :: x := by
    rw [toList_compact 0, spell_obj_cons]
    cases members <;> simp [spellMembers, hkey, hescape]
  have hwhole : ∀ {bound j left}, readValue bound ('\x7b' :: '"' :: c :: x) = some (j, left) →
      left = [] := by
    rw [← hx]
    exact eq_nil_of_readValue_compact hwritable
  have hskip : skipBlanks (p ++ '\x7b' :: '"' :: c :: x) =
      skipBlanks p ++ '\x7b' :: '"' :: c :: x := by
    rw [skipBlanks, List.dropWhile_append, if_neg (by simpa [skipBlanks] using hp)]
    rfl
  rw [read?, String.toList_ofList, hx, hskip]
  split
  · next j rest hread =>
    refine if_neg fun hempty => ?_
    obtain ⟨p', rfl⟩ | rfl | ⟨hnil, -⟩ := (readsFragment hblank hc hwhole _).value hread
    · obtain ⟨q, hq⟩ := suffix_skipBlanks p' ('"' :: c :: x)
      simp [← hq] at hempty
    · simp [skipBlanks_cons hblank] at hempty
    · exact hp hnil
  · rfl

end Entitle.Json
