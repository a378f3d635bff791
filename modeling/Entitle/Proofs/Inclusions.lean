import Mathlib.Data.List.Chain
import Mathlib.Data.List.Nodup
import Mathlib.Data.List.Perm.Subperm
import Mathlib.Logic.Relation
import Entitle.Proofs.Extracting
import Entitle.Script.Folder

/-!
# Chains of inclusions

The stack of an expansion is the list of the scripts that it is in: the root, then scripts each of
which is included by the one before. An error about the stack says something about the scripts, so
it says something about which scripts include which. Where an identifier may lead is a parameter
here. For the chain of identities in an error the loader is enough; to name the scripts of the
chain, what the cache holds has to be known too.

## Main definitions

* `Checked.Includes`: a script has an inclusion, perhaps in a branch, that leads to another one.
* `Checked.Trail`: scripts from a root on, each of which includes the next one.
* `ResolutionError.isAboutStack`, `ResolutionError.Justified`: errors about the stack, and the
  trail behind each of them.
* `Expanding.Obeys`: what results and errors of a computation are, from caches with a property.

## Main statements

* `Expansion.obeys_ofStatements`: statements fail as the scripts that they include fail.
* `Expansion.justified_of_ofChecked`: behind every error about the stack there is a trail.
-/
namespace Entitle

/-! ## Scripts that include others -/

/-- Is the statement a condition? -/
def Statement.isCond : Statement → Bool
  | cond .. => true
  | _ => false

namespace Checked

variable {leads : String → Checked → Prop}

/-- The script has an inclusion, wherever in its statements, that may lead to the other one. -/
def Includes (leads : String → Checked → Prop) (k included : Checked) : Prop :=
  ∃ target ∈ Statement.inclusionsOfAll k.statements, leads target included

/-- Scripts from the root on, each of which includes the next one. -/
structure Trail (leads : String → Checked → Prop) (root : Checked) (ks : List Checked) : Prop where
  head : ks.head? = some root
  linked : ks.IsChain (Includes leads)

variable {root k : Checked} {ks : List Checked}

theorem Trail.start (leads : String → Checked → Prop) (root : Checked) : Trail leads root [root] :=
  ⟨rfl, .singleton root⟩

/-- A script that the last one includes may be added. -/
theorem Trail.concat (h : Trail leads root (ks ++ [k])) {included : Checked}
    (hk : Includes leads k included) : Trail leads root (ks ++ [k] ++ [included]) := by
  refine ⟨by rw [List.head?_append, h.head, Option.some_or], ?_⟩
  rw [List.isChain_append]
  refine ⟨h.linked, .singleton _, ?_⟩
  simpa using hk

/-- What comes later in a trail is reached from what comes before. -/
theorem Trail.pairwise (h : Trail leads root ks) :
    ks.Pairwise (Relation.TransGen (Includes leads)) :=
  (h.linked.imp fun _ _ => Relation.TransGen.single).pairwise

/-- Every script of a trail is reached from the root. -/
theorem Trail.reaches (h : Trail leads root ks) (hk : k ∈ ks) :
    Relation.ReflTransGen (Includes leads) root k := by
  have hpairwise := h.pairwise
  cases ks with
  | nil => simp at hk
  | cons first rest =>
    obtain rfl : first = root := by simpa using h.head
    rcases List.mem_cons.1 hk with rfl | hk
    · exact .refl
    · exact ((List.pairwise_cons.1 hpairwise).1 k hk).to_reflTransGen

/-- The scripts that an inclusion leads to are all loaded, so besides the root there are no more
identities in a trail than scripts. -/
theorem Trail.length_le {ids : List String} (h : Trail leads root ks)
    (hids : ∀ target k, leads target k → k.identity ∈ ids)
    (hnodup : (ks.map (·.identity)).Nodup) : ks.length ≤ ids.length + 1 := by
  cases ks with
  | nil => simp
  | cons first rest =>
    have hsub : rest.map (·.identity) ⊆ ids := by
      intro identity hidentity
      obtain ⟨k, hk, rfl⟩ := List.mem_map.1 hidentity
      have hreach := (List.pairwise_cons.1 h.pairwise).1 k hk
      obtain ⟨k', -, target, -, hleads⟩ := Relation.TransGen.tail'_iff.1 hreach
      exact hids target k hleads
    have hrest := (List.nodup_cons.1 hnodup).2
    simpa using (List.Nodup.subperm hrest hsub).length_le

end Checked

/-! ## Where inclusions lead -/

/-- The identifier is loaded as a script with the identity of the checked script. -/
def Loader.Names (load : Loader) (target : String) (k : Checked) : Prop :=
  ∃ s, load target = .ok s ∧ s.identity = k.identity

/-- An inclusion gives a script with the identity of the one that is loaded. -/
theorem Cache.names_of_include? {load : Loader} {target : String} {k : Checked} {c c' : Cache}
    (h : c.include? load target = (.ok k, c')) : load.Names target k := by
  obtain ⟨s, hs, hfind⟩ := library_eq_some.1 (include?_eq_ok h).2
  exact ⟨s, hs, (find?_eq_some hfind).2.1.symm⟩

/-! ## Errors about the stack -/

/-- Is the error about scripts that are entered one inside another? -/
def ResolutionError.isAboutStack : ResolutionError → Bool
  | cycle _ | depthExceeded _ _ => true
  | _ => false

/-- An inclusion that gives no script does not fail because of the stack. -/
theorem Cache.isAboutStack_of_include? {load : Loader} {target : String} {c c' : Cache}
    {failure : IncludeFailure} (h : c.include? load target = (.error failure, c')) (o : Origin) :
    (failure.at o target).isAboutStack = false := by
  rw [Cache.include?] at h
  split at h
  · cases h
    rfl
  · cases h
    rfl
  · split at h <;> cases h
    · rfl
    · rfl

/-- Behind a cycle there is a trail that ends in its scripts; behind an exceeded limit there is a
trail of more scripts than the limit allows. Of errors that are not about the stack, `other`
holds. -/
def ResolutionError.Justified (leads : String → Checked → Prop) (root : Checked) (limit : Nat)
    (other : ResolutionError → Prop) : ResolutionError → Prop
  | cycle chain => 2 ≤ chain.length ∧ chain.getLast? = chain.head? ∧ chain.dropLast.Nodup ∧
    ∃ before ks, Checked.Trail leads root (before ++ ks) ∧ ks.map (·.identity) = chain
  | depthExceeded limit' chain => limit' = limit ∧ chain.length = limit + 2 ∧ chain.Nodup ∧
    ∃ ks, Checked.Trail leads root ks ∧ ks.map (·.identity) = chain
  | e => other e

theorem ResolutionError.justified_of_other {leads : String → Checked → Prop} {root : Checked}
    {limit : Nat} {other : ResolutionError → Prop} {e : ResolutionError}
    (he : e.isAboutStack = false) (h : other e) : e.Justified leads root limit other := by
  cases e with
  | cycle chain => cases he
  | depthExceeded limit' chain => cases he
  | _ => exact h

/-- The stack from the first occurrence of a script on, and that script again, is a cycle. -/
theorem ResolutionError.justified_cycle {leads : String → Checked → Prop} {root script : Checked}
    {limit : Nat} {other : ResolutionError → Prop} {path : List Checked}
    (hpath : Checked.Trail leads root (path ++ [script]))
    (hnodup : (path.map (·.identity)).Nodup) (hmem : script.identity ∈ path.map (·.identity)) :
    (cycle ((path.map (·.identity)).dropWhile (· != script.identity) ++
      [script.identity])).Justified leads root limit other := by
  obtain ⟨outer, inner, hsplit, houter⟩ := List.eq_append_cons_of_mem hmem
  have hdrop : (path.map (·.identity)).dropWhile (· != script.identity) =
      script.identity :: inner := by
    rw [hsplit, List.dropWhile_append_of_pos fun identity h => ?_]
    · simp
    · simpa using ne_of_mem_of_not_mem h houter
  rw [hdrop]
  refine ⟨by simp, by rw [List.getLast?_concat]; rfl, ?_, ?_⟩
  · rw [List.dropLast_concat]
    exact (List.nodup_append.1 (hsplit ▸ hnodup)).2.1
  · obtain ⟨before, after, rfl, -, hafter⟩ := List.map_eq_append_iff.1 hsplit
    exact ⟨before, after ++ [script], by rwa [← List.append_assoc], by simp [hafter]⟩

/-- A trail that is longer than the limit allows, and its chain. -/
theorem ResolutionError.justified_depthExceeded {leads : String → Checked → Prop}
    {root script : Checked} {limit : Nat} {other : ResolutionError → Prop} {path : List Checked}
    (hpath : Checked.Trail leads root (path ++ [script]))
    (hnodup : (path.map (·.identity)).Nodup) (hmem : script.identity ∉ path.map (·.identity))
    (hlength : path.length = limit + 1) :
    (depthExceeded limit (path.map (·.identity) ++ [script.identity])).Justified
      leads root limit other := by
  refine ⟨rfl, by simp [hlength], ?_, path ++ [script], hpath, by simp⟩
  rw [← List.concat_eq_append, List.nodup_concat]
  exact ⟨hmem, hnodup⟩

/-! ## Results and errors of computations -/

namespace Expanding

variable {α β : Type}

/-- From a cache with the property `I`, every result of the computation has the property `Q` and
comes with a cache that still has `I`, and every error has the property `E`. -/
def Obeys (I : Cache → Prop) (Q : α → Prop) (E : ResolutionError → Prop) (m : Expanding α) :
    Prop :=
  ∀ p c, I c → (∀ a p' c', m.on p c = (.ok (a, p'), c') → Q a ∧ I c') ∧
    ∀ e c', m.on p c = (.error e, c') → E e

variable {I : Cache → Prop} {E : ResolutionError → Prop} {Q : α → Prop} {R : β → Prop}

/-- A computation that always has a result, and leaves the cache as it is. -/
theorem obeys_of_on {m : Expanding α} (h : ∀ p c, ∃ a p', m.on p c = (.ok (a, p'), c) ∧ Q a) :
    m.Obeys I Q E := by
  intro p c hc
  obtain ⟨a, p', hm, ha⟩ := h p c
  rw [hm]
  refine ⟨fun a' p'' c' heq => ?_, fun e c' heq => ?_⟩
  · cases heq
    exact ⟨ha, hc⟩
  · cases heq

theorem obeys_pure {a : α} (h : Q a) : (pure a : Expanding α).Obeys I Q E :=
  obeys_of_on fun p c => ⟨a, p, on_pure a p c, h⟩

theorem obeys_modify (f : Progress → Progress) :
    (modify f : Expanding Unit).Obeys I (fun _ => True) E :=
  obeys_of_on fun p c => ⟨(), f p, on_modify f p c, trivial⟩

theorem obeys_get : (get : Expanding Progress).Obeys I (fun _ => True) E :=
  obeys_of_on fun p c => ⟨p, p, on_get p c, trivial⟩

theorem obeys_throw {e : ResolutionError} (h : E e) : (throw e : Expanding α).Obeys I Q E := by
  refine fun p c hc => ⟨fun a' p' c' heq => ?_, fun e' c' heq => ?_⟩
  · cases heq
  · cases heq
    exact h

theorem Obeys.bind {m : Expanding α} {f : α → Expanding β} (hm : m.Obeys I Q E)
    (hf : ∀ a, Q a → (f a).Obeys I R E) : (m >>= f).Obeys I R E := by
  intro p c hc
  obtain ⟨hok, herror⟩ := hm p c hc
  rw [on_bind]
  generalize m.on p c = r at hok herror
  obtain ⟨r, c'⟩ := r
  cases r with
  | ok r =>
    obtain ⟨hr, hc'⟩ := hok r.1 r.2 c' rfl
    exact hf r.1 hr r.2 c' hc'
  | error e =>
    refine ⟨fun a p' c' heq => ?_, fun e' c' heq => ?_⟩
    · cases heq
    · cases heq
      exact herror _ _ rfl

end Expanding

namespace Expansion

open Expanding

section

variable {I : Cache → Prop} {E : ResolutionError → Prop}
  {enter : Origin → String → Expanding (List Located)}

mutual

theorem obeys_ofStatement (s : Statement)
    (henter : ∀ o, ∀ target ∈ s.inclusions, (enter o target).Obeys I (fun _ => True) E)
    (hflag : s.isCond = false ∨ ∀ flag file line, E (.undefinedFlag flag file line)) :
    (ofStatement enter s).Obeys I (fun _ => True) E :=
  match s with
  | .directive o d => obeys_pure trivial
  | .inclusion o target => henter o target (List.mem_singleton.2 rfl)
  | .define o flag value => (obeys_modify _).bind fun _ _ => obeys_pure trivial
  | .cond o flag negated thenBranch elseBranch => by
    have hflag := hflag.resolve_left (by simp [Statement.isCond])
    simp only [Statement.inclusions, List.mem_append] at henter
    rw [ofStatement]
    refine obeys_get.bind fun p _ => ?_
    split
    · exact obeys_throw (hflag _ _ _)
    · split
      · exact obeys_ofStatements thenBranch (fun o target h => henter o target (.inl h))
          (.inr hflag)
      · exact obeys_ofStatements elseBranch (fun o target h => henter o target (.inr h))
          (.inr hflag)

/-- Statements fail as the scripts that they include fail, or because of a flag. -/
theorem obeys_ofStatements (ss : List Statement)
    (henter : ∀ o, ∀ target ∈ Statement.inclusionsOfAll ss,
      (enter o target).Obeys I (fun _ => True) E)
    (hflag : (∀ s ∈ ss, s.isCond = false) ∨ ∀ flag file line, E (.undefinedFlag flag file line)) :
    (ofStatements enter ss).Obeys I (fun _ => True) E :=
  match ss with
  | [] => obeys_pure trivial
  | s :: rest => by
    simp only [Statement.inclusionsOfAll, List.mem_append] at henter
    simp only [List.forall_mem_cons] at hflag
    rw [ofStatements]
    refine (obeys_ofStatement s (fun o target h => henter o target (.inl h))
      (hflag.imp_left And.left)).bind fun _ _ => ?_
    exact (obeys_ofStatements rest (fun o target h => henter o target (.inr h))
      (hflag.imp_left And.right)).bind fun _ _ => obeys_pure trivial

end

end

/-- What is known of the inclusions and conditions in a script: an inclusion gives a script that it
may lead to; if it fails, or if a flag is not defined, the error has the property `E`. -/
structure Traces (load : Loader) (I : Cache → Prop) (leads : String → Checked → Prop)
    (E : ResolutionError → Prop) (k : Checked) : Prop where
  require : ∀ o, ∀ target ∈ Statement.inclusionsOfAll k.statements,
    (require load o target).Obeys I (leads target) E
  flag : (∀ s ∈ k.statements, s.isCond = false) ∨
    ∀ flag file line, E (.undefinedFlag flag file line)

variable {load : Loader} {I : Cache → Prop} {leads : String → Checked → Prop}
  {other : ResolutionError → Prop} {limit : Nat} {root : Checked}

/-- The stack of an expansion is a trail without repetitions, so every error about the stack is
justified. The induction is on the room; what is left of it and the length of the stack add up to
the limit. -/
theorem justified_ofScript
    (htraces : ∀ k, Relation.ReflTransGen (Checked.Includes leads) root k →
      Traces load I leads (ResolutionError.Justified leads root limit other) k)
    {room : Nat} {path : List Checked} {script : Checked}
    (hroom : room + path.length = limit + 1)
    (hpath : Checked.Trail leads root (path ++ [script]))
    (hnodup : (path.map (·.identity)).Nodup) :
    (ofScript load limit room (path.map (·.identity)) script).Obeys I (fun _ => True)
      (ResolutionError.Justified leads root limit other) := by
  induction room generalizing path script with
  | zero =>
    by_cases hmem : script.identity ∈ path.map (·.identity)
    · rw [ofScript_of_mem hmem]
      exact obeys_throw (ResolutionError.justified_cycle hpath hnodup hmem)
    · rw [ofScript_of_full hmem]
      exact obeys_throw (ResolutionError.justified_depthExceeded hpath hnodup hmem (by omega))
  | succ room ih =>
    by_cases hmem : script.identity ∈ path.map (·.identity)
    · rw [ofScript_of_mem hmem]
      exact obeys_throw (ResolutionError.justified_cycle hpath hnodup hmem)
    · obtain ⟨hrequire, hflag⟩ := htraces script (hpath.reaches (by simp))
      rw [ofScript_of_notMem hmem]
      refine (obeys_modify _).bind fun _ _ =>
        obeys_ofStatements _ (fun o target htarget => ?_) hflag
      refine (hrequire o target htarget).bind fun included hincluded => ?_
      have hlonger : path.map (·.identity) ++ [script.identity] =
          (path ++ [script]).map (·.identity) := by simp
      rw [hlonger]
      refine ih (by simp; omega) (hpath.concat ⟨target, htarget, hincluded⟩) ?_
      rw [← hlonger, ← List.concat_eq_append, List.nodup_concat]
      exact ⟨hmem, hnodup⟩

/-- Behind every error of an expansion there is a trail from the root, if it is about the stack. -/
theorem justified_of_ofChecked
    (htraces : ∀ k, Relation.ReflTransGen (Checked.Includes leads) root k →
      Traces load I leads (ResolutionError.Justified leads root limit other) k)
    {c : Cache} (hc : I c) {e : ResolutionError} (he : (ofChecked load limit root c).1 = .error e) :
    e.Justified leads root limit other := by
  have hstart : Checked.Trail leads root ([] ++ [root]) := .start leads root
  have hobeys : (ofScript load limit (limit + 1) [] root).Obeys I (fun _ => True)
      (ResolutionError.Justified leads root limit other) :=
    justified_ofScript htraces rfl hstart List.nodup_nil
  rw [ofChecked_eq] at he
  rcases hr : (ofScript load limit (limit + 1) [] root).on .start c with ⟨r, c'⟩
  rw [hr] at he
  cases r with
  | ok r => cases he
  | error e' =>
    cases he
    exact (hobeys .start c hc).2 e c' hr

/-- An inclusion that fails does not do so because of the stack. -/
theorem obeys_require {o : Origin} {target : String} (hI : Cache.Stable load I)
    (hleads : ∀ c k c', I c → c.include? load target = (.ok k, c') → leads target k)
    (hother : ∀ e, other e) : (require load o target).Obeys I (leads target)
      (ResolutionError.Justified leads root limit other) := by
  intro p c hc
  have hc' := hI.include? hc target
  rw [on_require]
  rcases hinclude : c.include? load target with ⟨r, c'⟩
  rw [hinclude] at hc'
  cases r with
  | ok k =>
    refine ⟨fun a p' d heq => ?_, fun e d heq => ?_⟩
    · cases heq
      exact ⟨hleads c k c' hc hinclude, hc'⟩
    · cases heq
  | error failure =>
    refine ⟨fun a p' d heq => ?_, fun e d heq => ?_⟩
    · cases heq
    · cases heq
      exact ResolutionError.justified_of_other (Cache.isAboutStack_of_include? hinclude o)
        (hother _)

end Expansion

/-! ## Shelves -/

/-- The identity of a script on a shelf is the key of its text. -/
theorem Shelf.identity_mem_keys {s : Shelf} {i : String} {script : Script}
    (h : s.load i = .ok script) : script.identity ∈ s.texts.keys := by
  obtain ⟨identity, text, -, htext, rfl⟩ := load_eq_ok h
  exact List.mem_map_of_mem (Table.get?_eq_some_iff.1 htext)

/-- A script is on the shelf, and its expansion is as it is computed. -/
theorem Shelf.exists_ofChecked {s : Shelf} {limit : Nat} {i : String}
    {P : Except ResolutionError Expansion → Prop} [DecidablePred P]
    (h : ((s.load.checked? i).any fun k =>
      decide (P (Expansion.ofChecked s.load limit k .empty).1)) = true) :
    ∃ root, s.load.checked? i = some root ∧ P (Expansion.ofChecked s.load limit root .empty).1 := by
  obtain ⟨root, hroot, hP⟩ := (Option.any_eq_true _ _).1 h
  exact ⟨root, hroot, of_decide_eq_true hP⟩

end Entitle
