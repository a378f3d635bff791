import Entitle.Plan.Compile
import Entitle.Proofs.Expanding

/-!
# Compiled plans

What is known of a plan because it was compiled: the steps that led to it succeeded, and every
directive in it passed the check of its script. The second holds for any loader and any cache,
since a checked script carries the proof that it has no problems.

## Main definitions

* `Expansion.Sound`: no directive of the expansion has a problem.
* `compileText`: the plan of a single text.
* `Shelf.Fills`: the caches that compiling scripts of a shelf leads to.

## Main statements

* `compileScript_eq_ok`: the steps of a compilation that succeeds.
* `Expansion.sound_of_ofChecked`: the expansion of a checked script is sound.
* `stable_compileScript`: what checking keeps of a cache, a compilation keeps.
* `Shelf.Fills.faithful`: such caches are faithful.
-/
namespace Entitle

/-! ## Directives without problems -/

namespace Expanding

variable {α β : Type}

/-- Every result of the computation has a property. -/
def Ensures (Q : α → Prop) (m : Expanding α) : Prop :=
  ∀ p c a p' c', m.on p c = (.ok (a, p'), c') → Q a

theorem ensures_pure {Q : α → Prop} {a : α} (h : Q a) : (pure a : Expanding α).Ensures Q := by
  intro p c b p' c' heq
  rw [on_pure] at heq
  cases heq
  exact h

theorem ensures_throw {Q : α → Prop} (e : ResolutionError) :
    (throw e : Expanding α).Ensures Q := by
  intro p c b p' c' heq
  simp at heq

theorem ensures_bind {P : α → Prop} {Q : β → Prop} {m : Expanding α} {f : α → Expanding β}
    (hm : m.Ensures P) (hf : ∀ a, P a → (f a).Ensures Q) : (m >>= f).Ensures Q := by
  intro p c b p'' c'' h
  obtain ⟨a, p', c', hfirst, hrest⟩ := on_bind_eq_ok h
  exact hf a (hm p c a p' c' hfirst) p' c' b p'' c'' hrest

/-- Nothing has to be known of the first part. -/
theorem ensures_bind_right {Q : β → Prop} {m : Expanding α} {f : α → Expanding β}
    (hf : ∀ a, (f a).Ensures Q) : (m >>= f).Ensures Q :=
  ensures_bind (P := fun _ => True) (fun _ _ _ _ _ _ => trivial) fun a _ => hf a

end Expanding

namespace Expansion

open Expanding

/-- No directive has a problem. -/
def SoundDirectives (ds : List Located) : Prop :=
  ∀ d ∈ ds, d.directive.problems = []

/-- No directive of the expansion has a problem. -/
def Sound (e : Expansion) : Prop :=
  SoundDirectives e.directives

section

variable {enter : Origin → String → Expanding (List Located)}

mutual

theorem ensures_ofStatement (henter : ∀ o target, (enter o target).Ensures SoundDirectives)
    (s : Statement) (hs : s.errors = []) : (ofStatement enter s).Ensures SoundDirectives :=
  match s with
  | .directive o d => by
    refine ensures_pure fun located h => ?_
    rw [List.mem_singleton] at h
    simpa [h, Statement.errors] using hs
  | .inclusion o target => henter o target
  | .define o flag value => by
    refine ensures_bind_right fun _ => ensures_pure ?_
    simp [SoundDirectives]
  | .cond o flag negated thenBranch elseBranch => by
    simp only [Statement.errors, List.append_eq_nil_iff] at hs
    rw [ofStatement]
    refine ensures_bind_right fun p => ?_
    split
    · exact ensures_throw _
    · split
      · exact ensures_ofStatements henter thenBranch hs.1
      · exact ensures_ofStatements henter elseBranch hs.2

theorem ensures_ofStatements (henter : ∀ o target, (enter o target).Ensures SoundDirectives)
    (ss : List Statement) (hss : Statement.errorsOfAll ss = []) :
    (ofStatements enter ss).Ensures SoundDirectives :=
  match ss with
  | [] => ensures_pure (by simp [SoundDirectives])
  | s :: rest => by
    simp only [Statement.errorsOfAll, List.append_eq_nil_iff] at hss
    rw [ofStatements]
    refine ensures_bind (ensures_ofStatement henter s hss.1) fun first hfirst =>
      ensures_bind (ensures_ofStatements henter rest hss.2) fun more hmore =>
        ensures_pure fun d hd => ?_
    rcases List.mem_append.1 hd with hd | hd
    · exact hfirst d hd
    · exact hmore d hd

end

end

theorem ensures_ofScript (load : Loader) (limit room : Nat) (stack : List String)
    (script : Checked) : (ofScript load limit room stack script).Ensures SoundDirectives := by
  induction room generalizing stack script with
  | zero =>
    rw [ofScript]
    split <;> exact ensures_throw _
  | succ room ih =>
    rw [ofScript]
    split
    · exact ensures_throw _
    · refine ensures_bind_right fun _ =>
        ensures_ofStatements (fun o target => ?_) _ script.errors_eq_nil
      exact ensures_bind_right fun included => ih _ _

/-- An expansion is made of what the run of its root script gives. -/
theorem ofChecked_eq (load : Loader) (limit : Nat) (root : Checked) (c : Cache) :
    ofChecked load limit root c =
      (((ofScript load limit (limit + 1) [] root).on .start c).1.map fun result =>
          ⟨root.identity, result.1, result.2.sources⟩,
        ((ofScript load limit (limit + 1) [] root).on .start c).2) := by
  have hon : (ofScript load limit (limit + 1) [] root).on .start c =
      ((ofScript load limit (limit + 1) [] root).run .start).run c := rfl
  rw [ofChecked, ← hon]
  rcases (ofScript load limit (limit + 1) [] root).on .start c with ⟨r, c'⟩
  cases r <;> rfl

/-- An expansion that succeeds is the one of its root script. -/
theorem ofChecked_eq_ok {load : Loader} {limit : Nat} {root : Checked} {c : Cache}
    {e : Expansion} (h : (ofChecked load limit root c).1 = .ok e) :
    ∃ p' c', (ofScript load limit (limit + 1) [] root).on .start c =
      (.ok (e.directives, p'), c') ∧ e.identity = root.identity ∧ e.sources = p'.sources := by
  rw [ofChecked_eq] at h
  rcases hs : (ofScript load limit (limit + 1) [] root).on .start c with ⟨r, c'⟩
  rw [hs] at h
  cases r with
  | error e => cases h
  | ok r =>
    cases h
    exact ⟨r.2, c', rfl, rfl, rfl⟩

/-- The directives of an expanded script have passed its check or that of an included script. -/
theorem sound_of_ofChecked {load : Loader} {limit : Nat} {root : Checked} {c : Cache}
    {e : Expansion} (h : (ofChecked load limit root c).1 = .ok e) : e.Sound := by
  obtain ⟨p', c', hon, -, -⟩ := ofChecked_eq_ok h
  exact ensures_ofScript load limit (limit + 1) [] root _ _ _ _ _ hon

private theorem stable_ofChecked {load : Loader} {I : Cache → Prop} (hI : Cache.Stable load I)
    (limit : Nat) (root : Checked) {c : Cache} (hc : I c) : I (ofChecked load limit root c).2 := by
  rw [ofChecked_eq]
  exact keeps_ofScript hI limit (limit + 1) [] root .start c hc

end Expansion

/-! ## From a script to its plan -/

/-- The steps of a compilation that succeeds. -/
theorem compileScript_eq_ok {load : Loader} {limit : Nat} {i : String} {c : Cache} {plan : Plan}
    (h : (compileScript load limit i c).1 = .ok plan) :
    ∃ script root c' e, load i = .ok script ∧ c.check script = (.ok root, c') ∧
      (Expansion.ofChecked load limit root c').1 = .ok e ∧ plan = .ofExpansion e := by
  rw [compileScript] at h
  split at h
  · simp at h
  · next script hscript =>
    rw [compileLoaded] at h
    split at h
    · simp at h
    · simp at h
    · next root c' hroot =>
      split at h
      · simp at h
      · next e c'' he =>
        cases h
        exact ⟨script, root, c', e, hscript, hroot, by rw [he], rfl⟩

/-- What checking keeps of a cache, a compilation keeps, whether it succeeds or not. -/
theorem stable_compileScript {load : Loader} {I : Cache → Prop} (hI : Cache.Stable load I)
    {limit : Nat} {i : String} {c : Cache} (hc : I c) : I (compileScript load limit i c).2 := by
  rw [compileScript]
  split
  · exact hc
  · next script hscript =>
    have hroot := hI i script c hscript hc
    rw [compileLoaded]
    split
    · simp_all
    · simp_all
    · next root c' heq =>
      rw [heq] at hroot
      have := Expansion.stable_ofChecked hI limit root hroot
      split <;> simp_all

private theorem faithful_compileScript {load : Loader} (hl : load.Keyed) {limit : Nat} {i : String}
    {c : Cache} (hc : c.Faithful load) : (compileScript load limit i c).2.Faithful load :=
  stable_compileScript (Cache.stable_faithful hl) hc

/-- Compile a text that is alone on its shelf. -/
def compileText (text : String) : Except CompileError Plan :=
  (compileScript (Shelf.ofList [("main", text)]).load defaultIncludeLimit "main" .empty).1

/-- A text has a plan with a property if that can be computed. -/
theorem exists_of_compileText {text : String} {P : Plan → Prop} [DecidablePred P]
    (h : (match compileText text with
      | .ok plan => decide (P plan)
      | .error _ => false) = true) : ∃ plan, compileText text = .ok plan ∧ P plan := by
  cases hplan : compileText text with
  | error e => simp [hplan] at h
  | ok plan =>
    rw [hplan] at h
    exact ⟨plan, rfl, of_decide_eq_true h⟩

/-! ## Shelves -/

namespace Shelf

/-- The caches that compiling scripts of the shelf leads to. -/
inductive Fills (s : Shelf) : Cache → Prop
  | empty : s.Fills .empty
  | compile {c : Cache} (h : s.Fills c) (limit : Nat) (identifier : String) :
      s.Fills (compileScript s.load limit identifier c).2

/-- A script is loaded from the text under its identity. -/
theorem load_eq_ok {s : Shelf} {identifier : String} {script : Script}
    (h : s.load identifier = .ok script) : ∃ identity text,
      Identity.ofIdentifier? identifier = some identity ∧ s.texts.get? identity = some text ∧
        script = .ofText identity text := by
  rw [load] at h
  split at h
  · simp at h
  · next identity hidentity =>
    split at h
    · simp at h
    · next text htext =>
      cases h
      exact ⟨identity, text, hidentity, htext, rfl⟩

theorem settled_load (s : Shelf) : s.load.Settled := by
  intro i j script script' hi hj hidentity
  obtain ⟨identity, text, -, htext, rfl⟩ := load_eq_ok hi
  obtain ⟨identity', text', -, htext', rfl⟩ := load_eq_ok hj
  obtain rfl : identity = identity' := hidentity
  rw [htext] at htext'
  cases htext'
  rfl

/-- A cache filled from the shelf answers as a new one would. -/
theorem Fills.faithful {s : Shelf} {c : Cache} (h : s.Fills c) : c.Faithful s.load := by
  induction h with
  | empty => exact Cache.faithful_empty _
  | compile _ _ _ ih => exact faithful_compileScript s.settled_load.keyed ih

end Shelf

end Entitle
