import Entitle.Proofs.Bundle

/-!
# Identities as identifiers

The identity of a script is meant to be one more name for it. It is so with one exception, which
comes from the extension. The extension is taken off the last segment after everything relative has
been resolved, and taken off once. What is left of that segment is not looked at again, so it may be
a dot or two dots, and it may end in the extension. Then the identity leads elsewhere: it names no
script, or another one.

## Main definitions

* `Identity.IsEntered`: a segment that is entered when the segments of an identifier are resolved.
* `Identity.lastSegment`: the last segment of an identity.
* `Identity.IsFixed`: a last segment that is left as it is.

## Main statements

* `Identity.ofIdentifier?_join_iff`: which names are their own identities.
* `Shelf.load_identity_iff`: which scripts are found under their identities.
* `Shelf.not_load_identity`: scripts that are not.
-/
namespace Entitle

/-! ## Segments that are joined -/

namespace Text

variable {separator : Char → Bool} {c : Char} {cs segment : List Char}

theorem splitAt_of_noSeparator (h : ∀ d ∈ segment, separator d = false) :
    splitAt separator segment = [segment] := by
  induction segment with
  | nil => rfl
  | cons d segment ih =>
    have hd : separator d = false := h d List.mem_cons_self
    have hrest := ih fun e he => h e (List.mem_cons_of_mem _ he)
    simp [splitAt, hd, hrest]

theorem splitAt_append_cons (h : ∀ d ∈ segment, separator d = false) (hc : separator c = true) :
    splitAt separator (segment ++ c :: cs) = segment :: splitAt separator cs := by
  induction segment with
  | nil => simp [splitAt, hc]
  | cons d segment ih =>
    have hd : separator d = false := h d List.mem_cons_self
    have hrest := ih fun e he => h e (List.mem_cons_of_mem _ he)
    simp [splitAt, hd, hrest]

/-- Segments that are joined by a separator are the segments of the text. -/
theorem splitAt_intercalate {segments : List (List Char)} (hne : segments ≠ [])
    (h : ∀ s ∈ segments, ∀ d ∈ s, separator d = false) (hc : separator c = true) :
    splitAt separator ([c].intercalate segments) = segments := by
  induction segments with
  | nil => exact absurd rfl hne
  | cons first rest ih =>
    have hfirst := h first List.mem_cons_self
    cases rest with
    | nil => simpa using splitAt_of_noSeparator hfirst
    | cons second rest =>
      have hrest := ih (by simp) fun s hs => h s (List.mem_cons_of_mem _ hs)
      rw [List.intercalate_cons_cons, List.append_assoc, List.singleton_append,
        splitAt_append_cons hfirst hc, hrest]

end Text

namespace Identity

/-- A segment without a separator. -/
def NoSeparator (segment : List Char) : Prop :=
  ∀ c ∈ segment, isSeparator c = false

/-- A segment that is entered: it is not empty, not relative, and holds no separator. -/
structure IsEntered (segment : List Char) : Prop where
  ne_nil : segment ≠ []
  ne_dot : segment ≠ ['.']
  ne_dots : segment ≠ ['.', '.']
  noSeparator : NoSeparator segment

variable {segments outer entered : List (List Char)} {name : List Char}

theorem noSeparator_concat (houter : ∀ s ∈ outer, IsEntered s) (hname : NoSeparator name) :
    ∀ s ∈ outer ++ [name], NoSeparator s := by
  intro s hs
  cases List.mem_append.1 hs with
  | inl hs => exact (houter s hs).noSeparator
  | inr hs => rwa [List.mem_singleton.1 hs]

theorem splitAt_join (hne : segments ≠ []) (h : ∀ s ∈ segments, NoSeparator s) :
    Text.splitAt isSeparator (join segments).toList = segments := by
  rw [join, String.toList_ofList]
  exact Text.splitAt_intercalate hne h rfl

/-! ## Segments that are resolved -/

private theorem resolve_append (h : ∀ s ∈ segments, IsEntered s) (entered rest : List (List Char)) :
    resolve entered (segments ++ rest) = resolve (segments.reverse ++ entered) rest := by
  induction segments generalizing entered with
  | nil => rfl
  | cons s segments ih =>
    have hs := h s List.mem_cons_self
    have hrest := ih (fun t ht => h t (List.mem_cons_of_mem _ ht)) (s :: entered)
    simp [resolve, hs.ne_nil, hs.ne_dot, hs.ne_dots, hrest]

/-- Whatever is left was entered. -/
theorem isEntered_of_resolve (h : resolve entered segments = some outer)
    (hentered : ∀ s ∈ entered, IsEntered s) (hsegments : ∀ s ∈ segments, NoSeparator s) :
    ∀ s ∈ outer, IsEntered s := by
  induction segments generalizing entered with
  | nil =>
    cases h
    exact hentered
  | cons s segments ih =>
    have hrest : ∀ t ∈ segments, NoSeparator t := fun t ht =>
      hsegments t (List.mem_cons_of_mem _ ht)
    unfold resolve at h
    by_cases hskip : s = [] ∨ s = ['.']
    · rw [if_pos hskip] at h
      exact ih h hentered hrest
    · rw [if_neg hskip] at h
      rw [not_or] at hskip
      by_cases hdots : s = ['.', '.']
      · rw [if_pos hdots] at h
        cases entered with
        | nil => cases h
        | cons t entered => exact ih h (fun u hu => hentered u (List.mem_cons_of_mem _ hu)) hrest
      · rw [if_neg hdots] at h
        have hs : IsEntered s := ⟨hskip.1, hskip.2, hdots, hsegments s List.mem_cons_self⟩
        exact ih h (List.forall_mem_cons.2 ⟨hs, hentered⟩) hrest

/-! ## Names -/

/-- A name that is left as it is: it is not relative and does not end in the extension. -/
structure IsFixed (name : List Char) : Prop where
  ne_dot : name ≠ ['.']
  ne_dots : name ≠ ['.', '.']
  noExtension : ¬ extension <:+ name

instance (name : List Char) : Decidable (IsFixed name) :=
  decidable_of_iff (name ≠ ['.'] ∧ name ≠ ['.', '.'] ∧ ¬ extension <:+ name)
    ⟨fun h => ⟨h.1, h.2.1, h.2.2⟩, fun h => ⟨h.1, h.2, h.3⟩⟩

private theorem stem_eq_self_iff : stem name = name ↔ ¬ extension <:+ name := by
  rw [stem]
  by_cases h : extension <:+ name
  · have hlength := h.length_le
    have hpos : 0 < extension.length := by decide
    rw [if_pos (List.isSuffixOf_iff_suffix.2 h)]
    refine iff_of_false (fun heq => ?_) (not_not_intro h)
    have := congrArg List.length heq
    rw [List.length_take] at this
    omega
  · rw [if_neg (mt List.isSuffixOf_iff_suffix.1 h)]
    exact iff_of_true rfl h

private theorem noSeparator_stem (h : NoSeparator name) : NoSeparator (stem name) :=
  fun c hc => h c (mem_of_mem_stem hc)

/-- The last segment of an identity. -/
def lastSegment (identity : String) : List Char :=
  (Text.splitAt isSeparator identity.toList).getLast (Text.splitAt_ne_nil _ _)

private theorem lastSegment_join (h : ∀ s ∈ segments ++ [name], NoSeparator s) :
    lastSegment (join (segments ++ [name])) = name := by
  have hsplit := splitAt_join (by simp) h
  simp [lastSegment, hsplit]

/-! ## Identities -/

/-- An identity is entered segments and a name behind them. -/
theorem exists_of_ofIdentifier? {identifier identity : String}
    (h : ofIdentifier? identifier = some identity) : ∃ last outer,
      resolve [] (Text.splitAt isSeparator identifier.toList) = some (last :: outer) ∧
        stem last ≠ [] ∧ identity = join (outer.reverse ++ [stem last]) ∧
        (∀ s ∈ outer.reverse, IsEntered s) ∧ NoSeparator (stem last) := by
  rw [ofIdentifier?] at h
  split at h
  · cases h
  · cases h
  · next last outer hresolve =>
    have hentered := isEntered_of_resolve hresolve (by simp) fun s hs => Text.not_mem_splitAt hs
    split at h
    · cases h
    · next hstem =>
      cases h
      refine ⟨last, outer, hresolve, hstem, by simp, ?_, ?_⟩
      · intro s hs
        exact hentered s (List.mem_cons_of_mem _ (List.mem_reverse.1 hs))
      · exact noSeparator_stem (hentered last List.mem_cons_self).noSeparator

/-- Entered segments with a name behind them are their own identity exactly if the name is left as
it is. -/
theorem ofIdentifier?_join_iff (houter : ∀ s ∈ outer, IsEntered s) (hname : NoSeparator name)
    (hne : name ≠ []) :
    ofIdentifier? (join (outer ++ [name])) = some (join (outer ++ [name])) ↔ IsFixed name := by
  have hsplit := splitAt_join (by simp) (noSeparator_concat houter hname)
  have hresolve : resolve [] (outer ++ [name]) = resolve outer.reverse [name] := by
    simpa using resolve_append houter [] [name]
  constructor
  · intro h
    obtain ⟨last, outer', hlast, -, hidentity, houter', hstem⟩ := exists_of_ofIdentifier? h
    have hsplit' := splitAt_join (by simp) (noSeparator_concat houter' hstem)
    have hsame : outer ++ [name] = outer'.reverse ++ [stem last] := by
      rw [← hsplit, hidentity, hsplit']
    obtain ⟨rfl, heq⟩ := List.append_inj' hsame rfl
    have hnameEq : name = stem last := by simpa using heq
    rw [hsplit, hresolve, List.reverse_reverse] at hlast
    have hdot : name ≠ ['.'] := by
      intro hdot
      simp [hdot, resolve] at hlast
    have hdots : name ≠ ['.', '.'] := by
      intro hdots
      cases outer' with
      | nil => simp [hdots, resolve] at hlast
      | cons s outer'' =>
        have hlonger : outer'' = last :: s :: outer'' := by simpa [hdots, resolve] using hlast
        have := congrArg List.length hlonger
        simp at this
        omega
    have hlastEq : name = last := by simpa [hdot, hdots, hne, resolve] using hlast
    exact ⟨hdot, hdots, stem_eq_self_iff.1 (hlastEq ▸ hnameEq.symm)⟩
  · intro h
    have hentered : resolve outer.reverse [name] = some (name :: outer.reverse) := by
      simp [resolve, hne, h.ne_dot, h.ne_dots]
    rw [ofIdentifier?, hsplit, hresolve, hentered]
    simp [stem_eq_self_iff.2 h.noExtension, hne]

/-- An identity is its own identity exactly if its last segment is left as it is. -/
theorem ofIdentifier?_self_iff {identifier identity : String}
    (h : ofIdentifier? identifier = some identity) :
    ofIdentifier? identity = some identity ↔ IsFixed (lastSegment identity) := by
  obtain ⟨last, outer, -, hne, rfl, houter, hstem⟩ := exists_of_ofIdentifier? h
  rw [ofIdentifier?_join_iff houter hstem hne,
    lastSegment_join (noSeparator_concat houter hstem)]

end Identity

/-! ## Scripts under their identities -/

namespace Shelf

open Identity (ofIdentifier? IsFixed lastSegment)

/-- An identity leads to itself, and a script that was loaded is loaded again under its identity,
exactly if the last segment of the identity is left as it is. -/
theorem load_identity_iff (shelf : Shelf) (identifier : String) :
    (∀ identity, ofIdentifier? identifier = some identity →
      (ofIdentifier? identity = some identity ↔ IsFixed (lastSegment identity))) ∧
    ∀ script, shelf.load identifier = .ok script →
      (shelf.load script.identity = .ok script ↔ IsFixed (lastSegment script.identity)) := by
  refine ⟨fun identity h => Identity.ofIdentifier?_self_iff h, fun script h => ?_⟩
  obtain ⟨identity, text, hidentity, htext, rfl⟩ := load_eq_ok h
  rw [show (Script.ofText identity text).identity = identity from rfl,
    ← Identity.ofIdentifier?_self_iff hidentity]
  constructor
  · intro hagain
    obtain ⟨identity', text', hidentity', -, heq⟩ := load_eq_ok hagain
    have hsame : identity = identity' := congrArg Script.identity heq
    rw [hidentity', ← hsame]
  · intro hself
    rw [load, hself]
    simp only [htext]

theorem load_identity_common :
    let shelf := ofList [("common/base.warden", "delete \"/x\";")]
    let script := Script.ofText "common/base" "delete \"/x\";"
    ofIdentifier? "/common/old/..\\base.warden" = some "common/base" ∧
      ofIdentifier? "common/base" = some "common/base" ∧
      shelf.load "/common/old/..\\base.warden" = .ok script ∧
      shelf.load script.identity = .ok script := by
  intro shelf script
  have hidentity : ofIdentifier? "/common/old/..\\base.warden" = some "common/base" := by
    decide +kernel
  have hload : shelf.load "/common/old/..\\base.warden" = .ok script := rfl
  have h := load_identity_iff shelf "/common/old/..\\base.warden"
  exact ⟨hidentity, (h.1 _ hidentity).2 (by decide +kernel), hload,
    (h.2 _ hload).2 (by decide +kernel)⟩

/-- A script whose identity ends in two dots is not found under it, and one whose identity ends in
the extension gives way to another script. -/
theorem not_load_identity :
    let shelf := ofList [("a/...warden", "delete \"/x\";"), ("a.warden.warden", "delete \"/y\";"),
      ("a", "delete \"/z\";")]
    shelf.load "a/...warden" = .ok (.ofText "a/.." "delete \"/x\";") ∧
      shelf.load "a/.." = .error (.escapesRoot "a/..") ∧
      shelf.load "a.warden.warden" = .ok (.ofText "a.warden" "delete \"/y\";") ∧
      shelf.load "a.warden" = .ok (.ofText "a" "delete \"/z\";") :=
  ⟨rfl, rfl, rfl, rfl⟩

end Shelf

end Entitle
