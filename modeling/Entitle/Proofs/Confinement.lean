import Entitle.Proofs.Identities
import Entitle.Script.Folder

/-!
# Names that stay in a folder

An identifier is any text, and it decides which file a folder is asked for. It cannot lead out of
the folder: the name of the file goes down from the folder, segment by segment, and an identifier
that climbs above the root on its way has no identity, wherever it ends. The last segment is safe
although its stem may be relative, for the extension stands behind it again.

## Main definitions

* `Identity.Climbs`: segments of which a beginning leads above the root.

## Main statements

* `Identity.resolve_eq_none_iff`: when segments cannot be resolved.
* `Identity.isEntered_of_fileName`: the segments of a file name.
* `Identity.confined`: no identifier leads out of a folder.
-/
namespace Entitle.Identity

variable {segments outer entered : List (List Char)} {name : List Char}

/-! ## Climbing -/

/-- The segment leads one level up. -/
def isUp (segment : List Char) : Bool :=
  segment == ['.', '.']

/-- The segment names something, it is neither empty nor relative. -/
def isNamed (segment : List Char) : Bool :=
  segment != [] && segment != ['.'] && segment != ['.', '.']

/-- A beginning of the segments leads further up than down. -/
def Climbs (segments : List (List Char)) : Prop :=
  ∃ before, before <+: segments ∧ before.countP isNamed < before.countP isUp

/-- A beginning of a list is empty, or it begins with the first element. -/
theorem exists_prefix_cons {α : Type} {P : List α → Prop} {a : α} {l : List α} :
    (∃ before, before <+: a :: l ∧ P before) ↔ P [] ∨ ∃ before, before <+: l ∧ P (a :: before) := by
  constructor
  · rintro ⟨before, hbefore, h⟩
    obtain rfl | ⟨more, rfl, hmore⟩ := List.prefix_cons_iff.1 hbefore
    · exact .inl h
    · exact .inr ⟨more, hmore, h⟩
  · rintro (h | ⟨before, hbefore, h⟩)
    · exact ⟨[], List.nil_prefix, h⟩
    · exact ⟨a :: before, (List.prefix_cons_inj a).2 hbefore, h⟩

/-- Segments cannot be resolved exactly if a beginning of them leads further up than the segments
entered before and in it lead down. -/
theorem resolve_eq_none_iff : resolve entered segments = none ↔
    ∃ before, before <+: segments ∧
      entered.length + before.countP isNamed < before.countP isUp := by
  induction segments generalizing entered with
  | nil => simp [resolve]
  | cons s segments ih =>
    rw [exists_prefix_cons, or_iff_right (by simp)]
    unfold resolve
    by_cases hskip : s = [] ∨ s = ['.']
    · have hcounts : isNamed s = false ∧ isUp s = false := by
        rcases hskip with rfl | rfl <;> decide
      rw [if_pos hskip, ih]
      simp [hcounts]
    · rw [if_neg hskip]
      rw [not_or] at hskip
      by_cases hup : s = ['.', '.']
      · subst hup
        have hcounts : isNamed ['.', '.'] = false ∧ isUp ['.', '.'] = true := by decide
        rw [if_pos rfl]
        cases entered with
        | nil =>
          refine iff_of_true rfl ⟨[], List.nil_prefix, ?_⟩
          simp [hcounts]
        | cons t entered =>
          rw [ih]
          refine exists_congr fun before => and_congr_right fun _ => ?_
          simp only [List.countP_cons, hcounts, List.length_cons, if_true, Bool.false_eq_true,
            if_false]
          omega
      · have hcounts : isNamed s = true ∧ isUp s = false := by
          simp [isNamed, isUp, hskip, hup]
        rw [if_neg hup, ih]
        refine exists_congr fun before => and_congr_right fun _ => ?_
        simp only [List.countP_cons, hcounts, List.length_cons, if_true, Bool.false_eq_true,
          if_false]
        omega

private theorem resolve_nil_eq_none_iff : resolve [] segments = none ↔ Climbs segments := by
  simp [resolve_eq_none_iff, Climbs]

/-- An identifier has no identity exactly if it climbs above the root, or nothing is left of it to
name a script: no segment, or an extension without a stem. -/
theorem ofIdentifier?_eq_none_iff {identifier : String} : ofIdentifier? identifier = none ↔
    Climbs (Text.splitAt isSeparator identifier.toList) ∨
      ∃ left, resolve [] (Text.splitAt isSeparator identifier.toList) = some left ∧
        ∀ last ∈ left.head?, stem last = [] := by
  rw [← resolve_nil_eq_none_iff, ofIdentifier?]
  split
  · next h => simp [h]
  · next h => simp [h]
  · next last outer h => simp [h]

/-! ## File names -/

/-- A name with the extension behind it can be entered, even if the name is relative. -/
theorem isEntered_append_extension (h : NoSeparator name) : IsEntered (name ++ extension) := by
  have hlength : 7 ≤ (name ++ extension).length := by
    have hextension : extension.length = 7 := rfl
    rw [List.length_append, hextension]
    exact Nat.le_add_left ..
  have hne : ∀ short : List Char, short.length < 7 → name ++ extension ≠ short := by
    rintro short hshort rfl
    omega
  refine ⟨hne _ (by decide), hne _ (by decide), hne _ (by decide), fun c hc => ?_⟩
  cases List.mem_append.1 hc with
  | inl hc => exact h c hc
  | inr hc =>
    have hextension : ∀ c ∈ extension, (!isSeparator c) = true := List.all_eq_true.1 (by decide)
    simpa using hextension c hc

private theorem toList_join_concat (outer : List (List Char)) (name more : List Char) :
    (join (outer ++ [name])).toList ++ more = (join (outer ++ [name ++ more])).toList := by
  simp only [join, String.toList_ofList]
  induction outer with
  | nil => simp
  | cons first outer ih =>
    cases outer with
    | nil => simp [List.intercalate_cons_cons]
    | cons second outer =>
      simp only [List.cons_append, List.intercalate_cons_cons, List.append_assoc] at ih ⊢
      rw [ih]

/-- The segments of the name that a folder is asked for are all entered. -/
theorem isEntered_of_fileName {identifier identity : String}
    (h : ofIdentifier? identifier = some identity) :
    ∀ s ∈ Text.splitAt (· == '/') (identity ++ ".warden").toList, IsEntered s := by
  obtain ⟨last, outer, -, -, rfl, houter, hstem⟩ := exists_of_ofIdentifier? h
  have hentered : ∀ s ∈ outer.reverse ++ [stem last ++ extension], IsEntered s :=
    List.forall_mem_append.2
      ⟨houter, List.forall_mem_singleton.2 (isEntered_append_extension hstem)⟩
  have hsplit : Text.splitAt (· == '/')
      (join (outer.reverse ++ [stem last ++ extension])).toList =
        outer.reverse ++ [stem last ++ extension] := by
    rw [join, String.toList_ofList]
    refine Text.splitAt_intercalate (by simp) (fun s hs c hc => ?_) rfl
    exact (Bool.or_eq_false_iff.1 ((hentered s hs).noSeparator c hc)).1
  rw [String.toList_append, show ".warden".toList = extension from rfl, toList_join_concat, hsplit]
  exact hentered

/-! ## Folders -/

/-- No identifier leads out of a folder. The file of an identity has a name that goes down from the
folder: it has at least one segment, and all its segments are entered. An identifier that climbs
above the root on its way has no identity. -/
theorem confined (folder identifier : String) :
    (∀ identity, ofIdentifier? identifier = some identity →
      Folder.fileName folder identity = Folder.join folder (identity ++ ".warden") ∧
        Text.splitAt (· == '/') (identity ++ ".warden").toList ≠ [] ∧
        ∀ s ∈ Text.splitAt (· == '/') (identity ++ ".warden").toList, IsEntered s) ∧
    (ofIdentifier? identifier = none ↔
      Climbs (Text.splitAt isSeparator identifier.toList) ∨
        ∃ left, resolve [] (Text.splitAt isSeparator identifier.toList) = some left ∧
          ∀ last ∈ left.head?, stem last = []) :=
  ⟨fun _ h => ⟨rfl, Text.splitAt_ne_nil _ _, isEntered_of_fileName h⟩, ofIdentifier?_eq_none_iff⟩

/-- A stem of two dots is a folder above its own, but the file of its name is not. An identifier
that climbs above the root has no identity even if it comes back. -/
theorem confined_dots :
    ofIdentifier? "a/x/..\\...warden" = some "a/.." ∧
      Folder.fileName "scripts" "a/.." = "scripts/a/...warden" ∧
      (∀ s ∈ Text.splitAt (· == '/') "a/...warden".toList, IsEntered s) ∧
      ofIdentifier? "a/../../a" = none := by
  have hidentity : ofIdentifier? "a/x/..\\...warden" = some "a/.." := by decide +kernel
  have hclimbs : Climbs (Text.splitAt isSeparator "a/../../a".toList) :=
    ⟨[['a'], ['.', '.'], ['.', '.']], by decide +kernel, by decide⟩
  obtain ⟨hname, -, hentered⟩ := (confined "scripts" _).1 _ hidentity
  exact ⟨hidentity, hname, hentered, (confined "scripts" _).2.2 (.inl hclimbs)⟩

end Entitle.Identity
