import Entitle.Proofs.Paths

/-!
# Paths and the way up

The same order of paths is said in three ways. A path is within another one: that is a test on
texts. The segments of the one begin with those of the other: that is what the test is meant for.
The one is met on the way up from the other, from parent to parent: that is how the nearest entry
above a path is looked for. On well-formed paths the three agree, with the root as the case that
each of them treats on its own; and from any text the way up ends.

## Main definitions

* `Path.IsName`: what may stand between two slashes.
* `Path.segmentList`: the segments of a path, none for the root.
* `Path.climb`: the path so many steps up.

## Main statements

* `Path.problem?_eq_none_iff`: the well-formed paths.
* `Path.within_iff_prefix`: to be within is to begin with the segments.
* `Path.within_iff_climb`: to be within is to be met on the way up.
* `Path.climb_eq_getElem?`: the way up is the list of the ancestors.
* `Path.hierarchy`: all of it together.
-/
namespace Entitle.Path

variable {p r up : String}

/-! ## Names -/

/-- The characters that have a meaning in queries. -/
def reserved : List Char :=
  ['[', ']', '*', '|', '"']

/-- What may stand between two slashes. The two names that stand for other places are none. -/
structure IsName (name : List Char) : Prop where
  ne_nil : name ≠ []
  ne_here : name ≠ ['.']
  ne_above : name ≠ ['.', '.']
  plain : ∀ c ∈ name, c ≠ '/' ∧ Text.isControl c = false ∧ c ∉ reserved

private theorem isIllegal_eq_false_iff {c : Char} :
    isIllegal c = false ↔ Text.isControl c = false ∧ c ∉ reserved := by
  simp [isIllegal, reserved, and_assoc]

private theorem isSegment_iff_isName {name : List Char} : IsSegment name ↔ IsName name := by
  constructor
  · rintro ⟨hproblem, hlegal, hslash⟩
    rw [segmentProblem?] at hproblem
    split_ifs at hproblem with hnil hdots
    rw [not_or] at hdots
    refine ⟨hnil, hdots.1, hdots.2, fun c hc => ⟨?_, isIllegal_eq_false_iff.1 (hlegal c hc)⟩⟩
    rintro rfl
    exact hslash hc
  · rintro ⟨hnil, hhere, habove, hplain⟩
    refine ⟨?_, fun c hc => isIllegal_eq_false_iff.2 (hplain c hc).2, fun hc => ?_⟩
    · rw [segmentProblem?, if_neg hnil, if_neg (not_or.2 ⟨hhere, habove⟩)]
    · exact (hplain '/' hc).1 rfl

/-- A path is well-formed if it is the root, or names with a slash before each. -/
theorem problem?_eq_none_iff : problem? p = none ↔
    p = "/" ∨ ∃ x a, (∀ y ∈ x :: a, IsName y) ∧ p.toList = spell (x :: a) := by
  have hpath : problem? p = none ↔ ∃ a, (∀ x ∈ a, IsSegment x) ∧ p = ofSegments a := isPath_iff
  rw [hpath]
  constructor
  · rintro ⟨a, ha, rfl⟩
    cases a with
    | nil => exact .inl rfl
    | cons x a =>
      exact .inr ⟨x, a, fun y hy => isSegment_iff_isName.1 (ha y hy),
        toList_ofSegments (List.cons_ne_nil x a)⟩
  · rintro (rfl | ⟨x, a, ha, hp⟩)
    · exact ⟨[], by simp, rfl⟩
    · refine ⟨x :: a, fun y hy => isSegment_iff_isName.2 (ha y hy), String.toList_injective ?_⟩
      rw [hp, toList_ofSegments (List.cons_ne_nil x a)]

/-! ## Segments -/

/-- The segments of a path, none for the root. -/
def segmentList (path : String) : List (List Char) :=
  if path = "/" then [] else segments path.toList.tail

theorem segmentList_ofSegments {a : List (List Char)} (ha : ∀ x ∈ a, IsSegment x) :
    segmentList (ofSegments a) = a := by
  cases a with
  | nil => rfl
  | cons x a =>
    rw [segmentList, if_neg (ofSegments_ne_root ha (List.cons_ne_nil x a)),
      toList_ofSegments (List.cons_ne_nil x a), spell_cons, List.tail_cons]
    exact segments_append_spell (ha x List.mem_cons_self).noSlash
      fun y hy => ha y (List.mem_cons_of_mem _ hy)

/-- A path is what its segments give. -/
theorem ofSegments_segmentList (hp : IsPath p) : ofSegments (segmentList p) = p := by
  obtain ⟨a, ha, rfl⟩ := isPath_iff.1 hp
  rw [segmentList_ofSegments ha]

/-- To be within is to begin with the segments. -/
theorem within_iff_prefix (hp : IsPath p) (hr : IsPath r) :
    within p r = true ↔ segmentList r <+: segmentList p := by
  obtain ⟨a, ha, rfl⟩ := isPath_iff.1 hp
  obtain ⟨b, hb, rfl⟩ := isPath_iff.1 hr
  rw [segmentList_ofSegments ha, segmentList_ofSegments hb, within_ofSegments ha hb]

/-! ## The way up -/

/-- The path so many steps up, if the way is that long. -/
def climb : Nat → String → Option String
  | 0, path => some path
  | n + 1, path => (parent? path).bind (climb n)

/-- Each step up takes at least a character away. -/
theorem length_climb {n : Nat} (h : climb n p = some up) : up.length + n ≤ p.length := by
  induction n generalizing p with
  | zero =>
    cases h
    exact Nat.le_refl _
  | succ n ih =>
    obtain ⟨above, habove, hclimb⟩ := Option.bind_eq_some_iff.1 h
    have hshorter := length_parent habove
    have hrest := ih hclimb
    omega

/-- From any text the way up ends. -/
theorem exists_climb_eq_none (p : String) : ∃ n, climb n p = none := by
  refine ⟨p.length + 1, Option.eq_none_iff_forall_ne_some.2 fun up h => ?_⟩
  have hlength := length_climb h
  omega

/-- The way up is the list of the ancestors. -/
theorem climb_eq_getElem? (n : Nat) (p : String) : climb n p = (ancestors p)[n]? := by
  induction n generalizing p with
  | zero =>
    rw [ancestors]
    rfl
  | succ n ih =>
    rw [climb, ancestors, List.getElem?_cons_succ]
    split
    · next h => simp [h]
    · next above h => exact (congrArg (·.bind (climb n)) h).trans (ih above)

/-- To be within is to be met on the way up. -/
theorem within_iff_climb (hp : IsPath p) (hr : IsPath r) :
    within p r = true ↔ ∃ n, climb n p = some r := by
  constructor
  · intro h
    obtain ⟨below, hancestors, -⟩ := hp.ancestors_of_within hr h
    refine ⟨below.length, ?_⟩
    rw [climb_eq_getElem?, hancestors, List.getElem?_append_right (Nat.le_refl _), Nat.sub_self,
      ancestors]
    rfl
  · rintro ⟨n, hn⟩
    rw [climb_eq_getElem?] at hn
    exact (hp.mem_ancestors (List.mem_of_getElem? hn)).2

/-- The well-formed paths are the root and the rows of names. Among them a path is within another
one exactly if its segments begin with those of the other, and exactly if the other is met on its
way up; and from any text the way up ends. -/
theorem hierarchy :
    (∀ p, problem? p = none ↔
      p = "/" ∨ ∃ x a, (∀ y ∈ x :: a, IsName y) ∧ p.toList = spell (x :: a)) ∧
    (∀ p r, problem? p = none → problem? r = none →
      p = ofSegments (segmentList p) ∧
      (within p r = true ↔ segmentList r <+: segmentList p) ∧
      (within p r = true ↔ ∃ n, climb n p = some r)) ∧
    ∀ p, ∃ n, climb n p = none :=
  ⟨fun _ => problem?_eq_none_iff,
    fun _ _ hp hr =>
      ⟨(ofSegments_segmentList hp).symm, within_iff_prefix hp hr, within_iff_climb hp hr⟩,
    exists_climb_eq_none⟩

/-- A path with letters of other alphabets is within a path above it, and not within the path whose
text it begins with but whose last segment is another one. -/
theorem hierarchy_umlaut :
    problem? "/content/straße/größe" = none ∧ problem? "/content" = none ∧ problem? "/con" = none ∧
      (∃ n, climb n "/content/straße/größe" = some "/content") ∧
      ¬ (∃ n, climb n "/content/straße/größe" = some "/con") := by
  have hp : problem? "/content/straße/größe" = none := by decide +kernel
  have habove : problem? "/content" = none := by decide +kernel
  have hother : problem? "/con" = none := by decide +kernel
  refine ⟨hp, habove, hother, ?_, ?_⟩
  · exact ((hierarchy.2.1 _ _ hp habove).2.2).1 (by decide +kernel)
  · exact mt ((hierarchy.2.1 _ _ hp hother).2.2).2 (by decide +kernel)

end Entitle.Path
