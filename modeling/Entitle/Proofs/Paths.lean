import Mathlib.Data.List.Induction
import Mathlib.Data.String.Basic
import Entitle.Repository.Path

/-!
# Paths as segments

A well-formed path is read as the list of its segments. What the functions on paths compute from
texts is said here of these lists: a path is within another one if its segments begin with those of
the other, the parent has all segments but the last, and to rebase is to exchange a beginning.

## Main definitions

* `Path.IsSegment`: what stands between two slashes of a well-formed path.
* `Path.ofSegments`: the path with given segments.
* `Path.IsPath`: a well-formed path.

## Main statements

* `Path.isPath_iff`: the well-formed paths are those that segments give.
* `Path.within_ofSegments`: to be within is to begin with.
* `Path.parent?_concat`: the parent has all segments but the last.
* `Path.rebase_append`: to rebase is to exchange a beginning.
-/
namespace Entitle.Path

/-! ## Segments -/

/-- A text between two slashes of a well-formed path. -/
structure IsSegment (segment : List Char) : Prop where
  problem? : segmentProblem? segment = none
  legal : ∀ c ∈ segment, isIllegal c = false
  noSlash : '/' ∉ segment

theorem IsSegment.ne_nil {segment : List Char} (h : IsSegment segment) : segment ≠ [] := by
  intro hnil
  have := h.problem?
  simp [segmentProblem?, hnil] at this

/-- Segments with a slash before each. -/
def spell (segments : List (List Char)) : List Char :=
  segments.flatMap ('/' :: ·)

@[simp] theorem spell_nil : spell [] = [] := rfl

@[simp] theorem spell_cons (x : List Char) (a : List (List Char)) :
    spell (x :: a) = '/' :: (x ++ spell a) := by
  simp [spell]

@[simp] theorem spell_append (a b : List (List Char)) : spell (a ++ b) = spell a ++ spell b := by
  simp [spell]

@[simp] theorem spell_eq_nil_iff {a : List (List Char)} : spell a = [] ↔ a = [] := by
  cases a <;> simp

/-- The path with these segments. -/
def ofSegments (segments : List (List Char)) : String :=
  if segments = [] then "/" else String.ofList (spell segments)

@[simp] theorem ofSegments_nil : ofSegments [] = "/" := rfl

theorem toList_ofSegments {a : List (List Char)} (h : a ≠ []) :
    (ofSegments a).toList = spell a := by
  rw [ofSegments, if_neg h, String.toList_ofList]

/-- A text that begins with segments and goes on after a slash, or not at all, begins with the
first of them. -/
theorem append_eq_append_of_noSlash {x y : List Char} {s t : List Char} (hx : '/' ∉ x)
    (hy : '/' ∉ y) (hs : s = [] ∨ s.head? = some '/') (ht : t = [] ∨ t.head? = some '/')
    (h : x ++ s = y ++ t) : x = y ∧ s = t := by
  induction x generalizing y with
  | nil =>
    cases y with
    | nil => exact ⟨rfl, h⟩
    | cons c y =>
      rw [List.nil_append] at h
      subst h
      rcases hs with hs | hs
      · simp at hs
      · simp only [List.cons_append, List.head?_cons, Option.some.injEq] at hs
        exact absurd (hs ▸ List.mem_cons_self) hy
  | cons c x ih =>
    cases y with
    | nil =>
      rw [List.nil_append] at h
      subst h
      rcases ht with ht | ht
      · simp at ht
      · simp only [List.cons_append, List.head?_cons, Option.some.injEq] at ht
        exact absurd (ht ▸ List.mem_cons_self) hx
    | cons d y =>
      obtain ⟨rfl, hrest⟩ := List.cons.inj h
      obtain ⟨rfl, rfl⟩ := ih (fun m => hx (List.mem_cons_of_mem _ m))
        (fun m => hy (List.mem_cons_of_mem _ m)) hrest
      exact ⟨rfl, rfl⟩

theorem spell_eq_nil_or (a : List (List Char)) : spell a = [] ∨ (spell a).head? = some '/' := by
  cases a <;> simp

/-- What is spelled and then goes on, after a slash or not at all, begins with the segments. -/
theorem prefix_of_spell_append {a b : List (List Char)} (ha : ∀ x ∈ a, IsSegment x)
    (hb : ∀ x ∈ b, IsSegment x) {t : List Char} (ht : t = [] ∨ t.head? = some '/')
    (h : spell a = spell b ++ t) : ∃ c, a = b ++ c ∧ t = spell c := by
  induction b generalizing a with
  | nil => exact ⟨a, rfl, by simpa using h.symm⟩
  | cons y b ih =>
    cases a with
    | nil => simp at h
    | cons x a =>
      simp only [spell_cons, List.cons_append, List.cons.injEq, true_and,
        List.append_assoc] at h
      have htail : spell b ++ t = [] ∨ (spell b ++ t).head? = some '/' := by
        cases b with
        | nil => simpa using ht
        | cons z b => simp
      obtain ⟨rfl, hrest⟩ := append_eq_append_of_noSlash (ha x List.mem_cons_self).noSlash
        (hb y List.mem_cons_self).noSlash (spell_eq_nil_or a) htail h
      obtain ⟨c, rfl, rfl⟩ := ih (fun z hz => ha z (List.mem_cons_of_mem _ hz))
        (fun z hz => hb z (List.mem_cons_of_mem _ hz)) hrest
      exact ⟨c, rfl, rfl⟩

theorem spell_inj {a b : List (List Char)} (ha : ∀ x ∈ a, IsSegment x)
    (hb : ∀ x ∈ b, IsSegment x) (h : spell a = spell b) : a = b := by
  obtain ⟨c, rfl, hc⟩ := prefix_of_spell_append ha hb (.inl rfl) (by simpa using h)
  rw [spell_eq_nil_iff.1 hc.symm, List.append_nil]

theorem spell_ne_slash {a : List (List Char)} (ha : ∀ x ∈ a, IsSegment x) : spell a ≠ ['/'] := by
  intro h
  cases a with
  | nil => simp at h
  | cons x a =>
    simp only [spell_cons, List.cons.injEq, true_and, List.append_eq_nil_iff] at h
    exact (ha x List.mem_cons_self).ne_nil h.1

theorem ofSegments_ne_root {a : List (List Char)} (ha : ∀ x ∈ a, IsSegment x) (hne : a ≠ []) :
    ofSegments a ≠ "/" := by
  intro h
  have := congrArg String.toList h
  rw [toList_ofSegments hne] at this
  exact spell_ne_slash ha this

theorem ofSegments_inj {a b : List (List Char)} (ha : ∀ x ∈ a, IsSegment x)
    (hb : ∀ x ∈ b, IsSegment x) (h : ofSegments a = ofSegments b) : a = b := by
  by_cases hane : a = []
  · by_cases hbne : b = []
    · rw [hane, hbne]
    · subst hane
      exact absurd h.symm (ofSegments_ne_root hb hbne)
  · by_cases hbne : b = []
    · subst hbne
      exact absurd h (ofSegments_ne_root ha hane)
    · refine spell_inj ha hb ?_
      rw [← toList_ofSegments hane, ← toList_ofSegments hbne, h]

/-! ## Well-formed paths -/

/-- A well-formed path. -/
def IsPath (path : String) : Prop :=
  problem? path = none

instance (path : String) : Decidable (IsPath path) :=
  inferInstanceAs (Decidable (problem? path = none))

theorem spell_segments (cs : List Char) : spell (segments cs) = '/' :: cs := by
  rw [segments]
  induction cs with
  | nil => rfl
  | cons c rest ih =>
    rw [Text.splitAt]
    split
    · next hc =>
      rw [spell_cons, ih]
      simpa using (beq_iff_eq.1 hc).symm
    · split
      · next heq => exact absurd heq (Text.splitAt_ne_nil _ rest)
      · next first more heq =>
        rw [heq, spell_cons] at ih
        simpa using ih

private theorem segments_cons_of_ne {c : Char} (hc : c ≠ '/') {cs x : List Char}
    {a : List (List Char)} (h : segments cs = x :: a) : segments (c :: cs) = (c :: x) :: a := by
  have hne : (c == '/') = false := by simpa using hc
  rw [segments] at *
  rw [Text.splitAt, hne, h]
  rfl

/-- The segments that are spelled are the segments that are read. -/
theorem segments_append_spell {x : List Char} (hx : '/' ∉ x) {a : List (List Char)}
    (ha : ∀ y ∈ a, IsSegment y) : segments (x ++ spell a) = x :: a := by
  induction a generalizing x with
  | nil =>
    induction x with
    | nil => rfl
    | cons c x ih =>
      simp only [List.mem_cons, not_or] at hx
      exact segments_cons_of_ne (Ne.symm hx.1) (ih hx.2)
  | cons y a iha =>
    induction x with
    | nil =>
      have hy := ha y List.mem_cons_self
      have hrest := iha hy.noSlash fun z hz => ha z (List.mem_cons_of_mem _ hz)
      rw [segments] at *
      rw [List.nil_append, spell_cons, Text.splitAt, hrest]
      rfl
    | cons c x ih =>
      simp only [List.mem_cons, not_or] at hx
      exact segments_cons_of_ne (Ne.symm hx.1) (ih hx.2)

private theorem legal_of_mem_spell {a : List (List Char)} (ha : ∀ x ∈ a, IsSegment x) {c : Char}
    (hc : c ∈ spell a) : isIllegal c = false := by
  obtain ⟨x, hx, hc⟩ := List.mem_flatMap.1 hc
  rcases List.mem_cons.1 hc with rfl | hc
  · decide
  · exact (ha x hx).legal c hc

private theorem getLast?_spell {a : List (List Char)} (ha : ∀ x ∈ a, IsSegment x) :
    (spell a).getLast? ≠ some '/' := by
  rcases List.eq_nil_or_concat a with rfl | ⟨b, x, rfl⟩
  · simp
  · have hx : IsSegment x := ha x (by simp)
    rcases List.eq_nil_or_concat x with rfl | ⟨y, c, rfl⟩
    · exact absurd rfl hx.ne_nil
    · intro h
      have heq : spell (b.concat (y.concat c)) = (spell b ++ '/' :: y) ++ [c] := by
        simp [List.concat_eq_append]
      rw [heq, List.getLast?_concat, Option.some.injEq] at h
      exact hx.noSlash (by simp [h])

private theorem problem?_ofSegments {a : List (List Char)} (ha : ∀ x ∈ a, IsSegment x) :
    problem? (ofSegments a) = none := by
  cases a with
  | nil => decide
  | cons x a =>
    have hx := ha x List.mem_cons_self
    have hrest : x ++ spell a ≠ [] := by simp [hx.ne_nil]
    have hlast : (x ++ spell a).getLast? ≠ some '/' := by
      intro h
      refine getLast?_spell ha ?_
      rw [spell_cons, List.getLast?_cons, h]
      rfl
    have hlegal : ('/' :: (x ++ spell a)).find? isIllegal = none := by
      refine List.find?_eq_none.2 fun c hc => ?_
      rw [← spell_cons] at hc
      simp [legal_of_mem_spell ha hc]
    have hsegments : (segments (x ++ spell a)).findSome? segmentProblem? = none := by
      rw [segments_append_spell hx.noSlash fun y hy => ha y (List.mem_cons_of_mem _ hy)]
      exact List.findSome?_eq_none_iff.2 fun y hy => (ha y hy).problem?
    rw [problem?, toList_ofSegments (List.cons_ne_nil x a), spell_cons]
    simp only [ne_eq, not_true_eq_false, if_false, hrest, hlast, hlegal, hsegments]

/-- The well-formed paths are those that segments give. -/
theorem isPath_iff {path : String} :
    IsPath path ↔ ∃ a, (∀ x ∈ a, IsSegment x) ∧ path = ofSegments a := by
  constructor
  · intro h
    rw [IsPath, problem?] at h
    split at h
    · simp at h
    · next c rest hpath =>
      split at h
      · simp at h
      · next hc =>
        rw [ne_eq, Decidable.not_not] at hc
        subst hc
        split at h
        · next hrest =>
          refine ⟨[], by simp, String.toList_injective ?_⟩
          rw [hpath, hrest]
          rfl
        · split at h
          · simp at h
          · split at h
            · simp at h
            · next hlegal =>
              refine ⟨segments rest, ?_, String.toList_injective ?_⟩
              · intro x hx
                refine ⟨?_, ?_, ?_⟩
                · exact List.findSome?_eq_none_iff.1 h x hx
                · intro d hd
                  have hmem : d ∈ path.toList := by
                    rw [hpath]
                    exact List.mem_cons_of_mem _ (Text.mem_of_mem_splitAt hx hd)
                  simpa using List.find?_eq_none.1 hlegal d hmem
                · intro hslash
                  simpa using Text.not_mem_splitAt hx '/' hslash
              · have hne : segments rest ≠ [] := Text.splitAt_ne_nil _ rest
                rw [toList_ofSegments hne, spell_segments, hpath]
  · rintro ⟨a, ha, rfl⟩
    exact problem?_ofSegments ha

/-! ## Order -/

theorem within_ofSegments_root {a : List (List Char)} : within (ofSegments a) "/" = true := by
  cases a with
  | nil => decide
  | cons x a => simp [within, toList_ofSegments]

/-- To be within a path is to begin with its segments. -/
theorem within_ofSegments {a b : List (List Char)} (ha : ∀ x ∈ a, IsSegment x)
    (hb : ∀ x ∈ b, IsSegment x) : within (ofSegments a) (ofSegments b) = true ↔ b <+: a := by
  by_cases hbne : b = []
  · subst hbne
    simp [within_ofSegments_root]
  · have hroot := ofSegments_ne_root hb hbne
    rw [within, if_neg hroot, Bool.or_eq_true, beq_iff_eq, List.isPrefixOf_iff_prefix,
      toList_ofSegments hbne]
    constructor
    · rintro (h | ⟨t, ht⟩)
      · obtain rfl := ofSegments_inj ha hb h
        exact List.prefix_refl a
      · have hane : a ≠ [] := by
          rintro rfl
          have hlength := congrArg List.length ht
          have hpos := List.length_pos_iff.2 (mt spell_eq_nil_iff.1 hbne)
          simp only [ofSegments_nil, List.length_append] at hlength
          simp at hlength
          omega
        rw [toList_ofSegments hane, List.append_assoc] at ht
        obtain ⟨c, rfl, -⟩ := prefix_of_spell_append ha hb (.inr rfl) ht.symm
        exact List.prefix_append b c
    · rintro ⟨c, rfl⟩
      cases c with
      | nil => simp
      | cons x c =>
        refine .inr ⟨x ++ spell c, ?_⟩
        rw [toList_ofSegments (by simp)]
        simp

/-- The parent has all segments but the last. -/
theorem parent?_concat {a : List (List Char)} {x : List Char} (ha : ∀ y ∈ a, IsSegment y)
    (hx : IsSegment x) : parent? (ofSegments (a ++ [x])) = some (ofSegments a) := by
  have hax : ∀ y ∈ a ++ [x], IsSegment y := by
    intro y hy
    rcases List.mem_append.1 hy with hy | hy
    · exact ha y hy
    · rw [List.mem_singleton.1 hy]
      exact hx
  have hdrop : (spell (a ++ [x])).reverse.dropWhile (· != '/') = '/' :: (spell a).reverse := by
    have hall : ∀ c ∈ x.reverse, (c != '/') = true := by
      intro c hc
      have hmem := List.mem_reverse.1 hc
      simpa using fun h : c = '/' => hx.noSlash (h ▸ hmem)
    rw [spell_append, spell_cons, spell_nil, List.append_nil, List.reverse_append,
      List.reverse_cons, List.append_assoc, List.dropWhile_append_of_pos hall]
    rfl
  rw [parent?, if_neg (ofSegments_ne_root hax (by simp)), toList_ofSegments (by simp), hdrop]
  cases a with
  | nil => rfl
  | cons y a =>
    have hne : (spell (y :: a)).reverse ≠ [] := by simp
    split
    · next heq => simp at heq
    · next heq => exact absurd (List.cons.inj heq).2 hne
    · next before _ heq =>
      rw [← (List.cons.inj heq).2, List.reverse_reverse, ofSegments, if_neg (List.cons_ne_nil _ _)]

@[simp] theorem parent?_root : parent? "/" = none := by
  decide

theorem ancestors_root : ancestors "/" = ["/"] := by
  rw [ancestors]
  split
  · rfl
  · next up h => simp at h

private theorem ancestors_concat {a : List (List Char)} {x : List Char} (ha : ∀ y ∈ a, IsSegment y)
    (hx : IsSegment x) :
    ancestors (ofSegments (a ++ [x])) = ofSegments (a ++ [x]) :: ancestors (ofSegments a) := by
  have hparent := parent?_concat ha hx
  rw [ancestors]
  split
  · next h => simp [hparent] at h
  · next up h =>
    rw [hparent] at h
    cases h
    rfl

/-! ## Other places -/

theorem dropBytes_append (xs ys : List Char) : dropBytes (String.utf8Len xs) (xs ++ ys) = ys := by
  induction xs with
  | nil => simp
  | cons c xs ih =>
    have hpos := c.utf8Size_pos
    rw [List.cons_append, dropBytes, String.utf8Len_cons, if_neg (by omega),
      Nat.add_sub_cancel, ih]

/-- To cut a text behind its first bytes is to take it as two texts of which the first one has that
many. -/
theorem isBoundary_iff {n : Nat} {cs : List Char} :
    isBoundary n cs = true ↔ ∃ before after, cs = before ++ after ∧ String.utf8Len before = n := by
  induction cs generalizing n with
  | nil =>
    cases n with
    | zero => simp [isBoundary]
    | succ n => simp [isBoundary]
  | cons c rest ih =>
    have hpos := c.utf8Size_pos
    cases n with
    | zero => exact iff_of_true rfl ⟨[], c :: rest, rfl, rfl⟩
    | succ n =>
      rw [isBoundary, Bool.and_eq_true, decide_eq_true_eq, ih]
      constructor
      · rintro ⟨hsize, before, after, rfl, hlen⟩
        exact ⟨c :: before, after, rfl, by rw [String.utf8Len_cons]; omega⟩
      · rintro ⟨before, after, heq, hlen⟩
        cases before with
        | nil => cases hlen
        | cons d before =>
          obtain ⟨rfl, rfl⟩ := List.cons.inj heq
          rw [String.utf8Len_cons] at hlen
          exact ⟨by omega, before, after, rfl, by omega⟩

/-- A path is cut safely wherever something stands within that place. -/
theorem severable_of_within {p source : String} (h : within p source = true) :
    severable p source = true := by
  rw [severable, isBoundary_iff]
  by_cases hroot : source = "/"
  · subst hroot
    have hhead : p.toList.head? = some '/' := by simpa [within] using h
    obtain ⟨rest, hp⟩ := List.head?_eq_some_iff.1 hhead
    exact ⟨['/'], rest, hp, rfl⟩
  · rw [within, if_neg hroot, Bool.or_eq_true, beq_iff_eq] at h
    rcases h with rfl | h
    · exact ⟨p.toList, [], by simp, String.utf8Len_toList p⟩
    · obtain ⟨rest, hp⟩ := List.isPrefixOf_iff_prefix.1 h
      exact ⟨source.toList, '/' :: rest, by simp [← hp], String.utf8Len_toList source⟩

/-- What stands at the source itself stands at the target. -/
theorem rebase_self (source target : String) : rebase source source target = target := by
  have hnil : dropBytes source.utf8ByteSize source.toList = [] := by
    have h := dropBytes_append source.toList []
    rwa [List.append_nil, String.utf8Len_toList] at h
  rw [rebase, hnil]
  by_cases hroot : target = "/"
  · simp [hroot]
  · simp [hroot]

/-- To rebase is to exchange a beginning. -/
theorem rebase_append {a b c : List (List Char)} (ha : a ≠ []) (hb : ∀ x ∈ b, IsSegment x) :
    rebase (ofSegments (a ++ c)) (ofSegments a) (ofSegments b) = ofSegments (b ++ c) := by
  have hsuffix : dropBytes (ofSegments a).utf8ByteSize (ofSegments (a ++ c)).toList = spell c := by
    rw [toList_ofSegments (by simp [ha]), ofSegments, if_neg ha, String.utf8ByteSize_ofList,
      spell_append, dropBytes_append]
  rw [rebase]
  rw [hsuffix]
  by_cases hbne : b = []
  · subst hbne
    cases c with
    | nil => rfl
    | cons x c => simp [ofSegments, String.ext_iff]
  · rw [if_neg (ofSegments_ne_root hb hbne)]
    refine String.toList_injective ?_
    rw [String.toList_append, String.toList_ofList, toList_ofSegments hbne,
      toList_ofSegments (by simp [hbne]), spell_append]

/-! ## The same without segments -/

theorem within_refl (p : String) : within p p = true := by
  by_cases h : p = "/"
  · subst h
    decide
  · simp [within, h]

/-- What stood within one place stands within the other one after it was rebased, whatever text it
is. -/
theorem within_rebase {p source : String} (hroot : source ≠ "/")
    (h : within p source = true) (target : String) :
    within (rebase p source target) target = true := by
  rw [within, if_neg hroot, Bool.or_eq_true, beq_iff_eq] at h
  rcases h with rfl | h
  · rw [rebase_self]
    exact within_refl target
  · obtain ⟨rest, hp⟩ := List.isPrefixOf_iff_prefix.1 h
    have hsuffix : dropBytes source.utf8ByteSize p.toList = '/' :: rest := by
      rw [← hp, List.append_assoc, ← String.utf8Len_toList, dropBytes_append]
      rfl
    rw [rebase, hsuffix]
    by_cases htarget : target = "/"
    · subst htarget
      simp [within]
    · rw [if_neg htarget, within, if_neg htarget, Bool.or_eq_true]
      refine .inr (List.isPrefixOf_iff_prefix.2 ⟨rest, ?_⟩)
      simp

namespace IsPath

theorem ofSegments {a : List (List Char)} (ha : ∀ x ∈ a, IsSegment x) : IsPath (ofSegments a) :=
  problem?_ofSegments ha

variable {p q r s t up : String}

theorem within_trans (hp : IsPath p) (hq : IsPath q) (hr : IsPath r) (hpq : within p q = true)
    (hqr : within q r = true) : within p r = true := by
  obtain ⟨a, ha, rfl⟩ := isPath_iff.1 hp
  obtain ⟨b, hb, rfl⟩ := isPath_iff.1 hq
  obtain ⟨c, hc, rfl⟩ := isPath_iff.1 hr
  rw [within_ofSegments ha hb] at hpq
  rw [within_ofSegments hb hc] at hqr
  rw [within_ofSegments ha hc]
  exact hqr.trans hpq

theorem root : IsPath "/" := by
  decide

theorem within_root (hp : IsPath p) : within p "/" = true := by
  obtain ⟨a, ha, rfl⟩ := isPath_iff.1 hp
  exact within_ofSegments_root

theorem eq_of_within (hp : IsPath p) (hq : IsPath q) (hpq : within p q = true)
    (hqp : within q p = true) : p = q := by
  obtain ⟨a, ha, rfl⟩ := isPath_iff.1 hp
  obtain ⟨b, hb, rfl⟩ := isPath_iff.1 hq
  rw [within_ofSegments ha hb] at hpq
  rw [within_ofSegments hb ha] at hqp
  rw [hqp.eq_of_length_le hpq.length_le]

/-- Of two paths that a third one is within, one is within the other. -/
theorem within_or_within (hp : IsPath p) (hq : IsPath q) (hr : IsPath r)
    (hpq : within p q = true) (hpr : within p r = true) :
    within q r = true ∨ within r q = true := by
  obtain ⟨a, ha, rfl⟩ := isPath_iff.1 hp
  obtain ⟨b, hb, rfl⟩ := isPath_iff.1 hq
  obtain ⟨c, hc, rfl⟩ := isPath_iff.1 hr
  rw [within_ofSegments ha hb] at hpq
  rw [within_ofSegments ha hc] at hpr
  rw [within_ofSegments hb hc, within_ofSegments hc hb]
  exact (List.prefix_or_prefix_of_prefix hpq hpr).symm

private theorem exists_of_parent (hp : IsPath p) (h : parent? p = some up) : ∃ a x,
    (∀ y ∈ a, IsSegment y) ∧ IsSegment x ∧ p = Path.ofSegments (a ++ [x]) ∧
      up = Path.ofSegments a := by
  obtain ⟨b, hb, rfl⟩ := isPath_iff.1 hp
  rcases List.eq_nil_or_concat b with rfl | ⟨a, x, rfl⟩
  · simp at h
  · rw [List.concat_eq_append] at *
    have ha : ∀ y ∈ a, IsSegment y := fun y hy => hb y (List.mem_append_left _ hy)
    have hx : IsSegment x := hb x (by simp)
    rw [parent?_concat ha hx] at h
    exact ⟨a, x, ha, hx, rfl, (Option.some.inj h).symm⟩

theorem parent (hp : IsPath p) (h : parent? p = some up) : IsPath up := by
  obtain ⟨a, x, ha, -, -, rfl⟩ := exists_of_parent hp h
  exact ofSegments ha

theorem exists_parent (hp : IsPath p) (hroot : p ≠ "/") : ∃ up, parent? p = some up := by
  obtain ⟨b, hb, rfl⟩ := isPath_iff.1 hp
  rcases List.eq_nil_or_concat b with rfl | ⟨a, x, rfl⟩
  · simp at hroot
  · rw [List.concat_eq_append] at *
    exact ⟨_, parent?_concat (fun y hy => hb y (List.mem_append_left _ hy)) (hb x (by simp))⟩

/-- A path is within another one if it is that one or its parent is within. -/
theorem within_iff_parent (hp : IsPath p) (h : parent? p = some up) (hr : IsPath r) :
    within p r = true ↔ r = p ∨ within up r = true := by
  obtain ⟨a, x, ha, hx, rfl, rfl⟩ := exists_of_parent hp h
  obtain ⟨c, hc, rfl⟩ := isPath_iff.1 hr
  have hax : ∀ y ∈ a ++ [x], IsSegment y := by
    intro y hy
    rcases List.mem_append.1 hy with hy | hy
    · exact ha y hy
    · rwa [List.mem_singleton.1 hy]
  rw [within_ofSegments hax hc, within_ofSegments ha hc, List.prefix_concat_iff]
  constructor
  · rintro (rfl | h)
    · exact .inl rfl
    · exact .inr h
  · rintro (h | h)
    · exact .inl (ofSegments_inj hc hax h)
    · exact .inr h

theorem within_parent (hp : IsPath p) (h : parent? p = some up) : within p up = true :=
  (hp.within_iff_parent h (hp.parent h)).2 (.inr (within_refl up))

theorem not_within_of_parent (hp : IsPath p) (h : parent? p = some up) :
    ¬ within up p = true := by
  intro hup
  have heq := (hp.parent h).eq_of_within hp hup (hp.within_parent h)
  have hlength := length_parent h
  rw [heq] at hlength
  omega

/-- What is above a path: first what is strictly within another one, then what is above that. -/
theorem ancestors_of_within (hp : IsPath p) (hq : IsPath q) (h : within p q = true) :
    ∃ below, ancestors p = below ++ ancestors q ∧ ∀ r ∈ below, IsPath r ∧ within p r = true ∧
      within r q = true ∧ r ≠ q := by
  obtain ⟨d, hd, rfl⟩ := isPath_iff.1 hp
  obtain ⟨b, hb, rfl⟩ := isPath_iff.1 hq
  obtain ⟨c, rfl⟩ := (within_ofSegments hd hb).1 h
  clear h hp
  induction c using List.reverseRecOn with
  | nil => exact ⟨[], by simp, fun r hr => by cases hr⟩
  | append_singleton c x ih =>
    rw [← List.append_assoc] at hd ⊢
    have hbc : ∀ y ∈ b ++ c, IsSegment y := fun y hy => hd y (List.mem_append_left _ hy)
    have hx : IsSegment x := hd x (by simp)
    have hwithin : within (Path.ofSegments (b ++ c ++ [x])) (Path.ofSegments (b ++ c)) = true :=
      (within_ofSegments hd hbc).2 (List.prefix_append _ _)
    obtain ⟨below, hancestors, hbelow⟩ := ih hbc
    refine ⟨Path.ofSegments (b ++ c ++ [x]) :: below, ?_, List.forall_mem_cons.2 ⟨?_, ?_⟩⟩
    · rw [ancestors_concat hbc hx, hancestors, List.cons_append]
    · refine ⟨ofSegments hd, within_refl _, ?_, fun heq => ?_⟩
      · rw [within_ofSegments hd hb, List.append_assoc]
        exact List.prefix_append b _
      · have hlength := congrArg List.length (ofSegments_inj hd hb heq)
        simp at hlength
    · intro r hr
      obtain ⟨hr, hwithin', hrest⟩ := hbelow r hr
      exact ⟨hr, within_trans (ofSegments hd) (ofSegments hbc) hr hwithin hwithin', hrest⟩

theorem mem_ancestors (hp : IsPath p) (h : q ∈ ancestors p) : IsPath q ∧ within p q = true := by
  obtain ⟨below, hancestors, hbelow⟩ := hp.ancestors_of_within .root hp.within_root
  rw [hancestors, ancestors_root] at h
  rcases List.mem_append.1 h with h | h
  · exact ⟨(hbelow q h).1, (hbelow q h).2.1⟩
  · rw [List.mem_singleton.1 h]
    exact ⟨root, hp.within_root⟩

theorem eq_root_of_within (hp : IsPath p) (h : within "/" p = true) : p = "/" :=
  hp.eq_of_within .root hp.within_root h

theorem root_not_within (hp : IsPath p) (h : p ≠ "/") : within "/" p = false :=
  Bool.eq_false_iff.2 fun hwithin => h (hp.eq_root_of_within hwithin)

/-! ### Rebasing -/

section

variable (hp : IsPath p) (hs : IsPath s) (ht : IsPath t) (hroot : s ≠ "/")
  (h : within p s = true)
include hp hs ht hroot h

/-- A path within `s`, and its place under `t`. -/
theorem exists_rebase : ∃ a b c, (∀ x ∈ a ++ c, IsSegment x) ∧ (∀ x ∈ b ++ c, IsSegment x) ∧
    a ≠ [] ∧ p = Path.ofSegments (a ++ c) ∧ s = Path.ofSegments a ∧ t = Path.ofSegments b ∧
    Path.rebase p s t = Path.ofSegments (b ++ c) := by
  obtain ⟨d, hd, rfl⟩ := isPath_iff.1 hp
  obtain ⟨a, ha, rfl⟩ := isPath_iff.1 hs
  obtain ⟨b, hb, rfl⟩ := isPath_iff.1 ht
  obtain ⟨c, rfl⟩ := (within_ofSegments hd ha).1 h
  have hne : a ≠ [] := by
    rintro rfl
    exact hroot rfl
  refine ⟨a, b, c, hd, ?_, hne, rfl, rfl, rfl, rebase_append hne hb⟩
  intro x hx
  rcases List.mem_append.1 hx with hx | hx
  · exact hb x hx
  · exact hd x (List.mem_append_right _ hx)

theorem rebase : IsPath (Path.rebase p s t) := by
  obtain ⟨a, b, c, -, hbc, -, -, -, -, heq⟩ := exists_rebase hp hs ht hroot h
  rw [heq]
  exact ofSegments hbc

theorem rebase_rebase (htarget : t ≠ "/") : Path.rebase (Path.rebase p s t) t s = p := by
  obtain ⟨a, b, c, hac, -, -, rfl, rfl, rfl, heq⟩ := exists_rebase hp hs ht hroot h
  have hne : b ≠ [] := by
    rintro rfl
    exact htarget rfl
  rw [heq, rebase_append hne fun x hx => hac x (List.mem_append_left _ hx)]

/-- To rebase twice is to rebase at once. -/
theorem rebase_via (ht' : t ≠ "/") {u : String} (hu : IsPath u) :
    Path.rebase (Path.rebase p s t) t u = Path.rebase p s u := by
  obtain ⟨a, b, c, -, -, hne, rfl, rfl, rfl, heq⟩ := exists_rebase hp hs ht hroot h
  obtain ⟨d, hd, rfl⟩ := isPath_iff.1 hu
  have hne' : b ≠ [] := by
    rintro rfl
    exact ht' rfl
  rw [heq, rebase_append hne' hd, rebase_append hne hd]

/-- The parent of the place under `t` is the place of the parent. -/
theorem parent_rebase (hne : p ≠ s) : ∃ up, parent? p = some up ∧ within up s = true ∧
    parent? (Path.rebase p s t) = some (Path.rebase up s t) := by
  obtain ⟨a, b, c, hac, hbc, hane, rfl, rfl, rfl, heq⟩ := exists_rebase hp hs ht hroot h
  rcases List.eq_nil_or_concat c with rfl | ⟨d, x, rfl⟩
  · simp at hne
  · rw [List.concat_eq_append, ← List.append_assoc] at *
    have had : ∀ y ∈ a ++ d, IsSegment y := fun y hy => hac y (List.mem_append_left _ hy)
    have hbd : ∀ y ∈ b ++ d, IsSegment y := fun y hy => hbc y (List.mem_append_left _ hy)
    have hx : IsSegment x := hac x (by simp)
    have ha : ∀ y ∈ a, IsSegment y := fun y hy => had y (List.mem_append_left _ hy)
    have hb : ∀ y ∈ b, IsSegment y := fun y hy => hbd y (List.mem_append_left _ hy)
    refine ⟨Path.ofSegments (a ++ d), parent?_concat had hx, ?_, ?_⟩
    · exact (within_ofSegments had ha).2 (List.prefix_append a d)
    · rw [heq, ← List.append_assoc, parent?_concat hbd hx, rebase_append hane hb]

end

/-- To rebase to the same place changes nothing. -/
theorem rebase_same (hp : IsPath p) (hs : IsPath s) (hroot : s ≠ "/") (h : within p s = true) :
    Path.rebase p s s = p := by
  obtain ⟨a, b, c, hac, hbc, -, rfl, rfl, hb, heq⟩ := exists_rebase hp hs hs hroot h
  have ha : ∀ x ∈ a, IsSegment x := fun x hx => hac x (List.mem_append_left _ hx)
  rw [heq, ← ofSegments_inj ha (fun x hx => hbc x (List.mem_append_left _ hx)) hb]

/-- Rebasing follows the place that stands for an inner one. -/
theorem rebase_rebase_within (hp : IsPath p) (hq : IsPath q) (hs : IsPath s) (ht : IsPath t)
    (hroot : s ≠ "/") (hpq : within p q = true) (hqs : within q s = true) :
    Path.rebase p q (Path.rebase q s t) = Path.rebase p s t := by
  obtain ⟨a, b, c, hac, hbc, hne, rfl, rfl, rfl, heq⟩ := exists_rebase hq hs ht hroot hqs
  obtain ⟨d, hd, rfl⟩ := isPath_iff.1 hp
  obtain ⟨e, rfl⟩ := (within_ofSegments hd hac).1 hpq
  rw [heq, rebase_append (by simp [hne]) hbc, List.append_assoc, List.append_assoc,
    rebase_append hne fun x hx => hbc x (List.mem_append_left _ hx)]

end IsPath

end Entitle.Path
