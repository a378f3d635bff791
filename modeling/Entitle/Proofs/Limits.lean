import Mathlib.Data.Finset.Card
import Entitle.Proofs.Inclusions

/-!
# The limit of inclusions

The limit on inclusions one inside another is there to keep an expansion from going too deep. It is
not needed for the expansion to end: a script is entered only if it is not on the stack, so with
every script that is entered there are fewer that may still be. And it changes nothing but that an
expansion may be cut off. Whatever else an expansion gives, a result or an error, it gives with
every higher limit; and a limit that is the number of scripts never cuts.

## Main definitions

* `Expansion.EnteredFrom`: one script is entered while another one is expanded.
* `Expanding.Cut`: a computation goes as another one, unless that one exceeds its limit.

## Main statements

* `Expansion.wellFounded_enteredFrom`: scripts cannot be entered one from another for ever.
* `Expansion.cut_ofScript`: with more room an expansion goes as it did, unless it was cut off.
* `Expansion.limit_only_cuts`: both of it for a script and its inclusions.
-/
namespace Entitle

private theorem Expanding.on_ext {α : Type} {m m' : Expanding α} (h : ∀ p c, m.on p c = m'.on p c) :
    m = m' :=
  funext fun p => funext fun c => h p c

namespace Expansion

open Expanding

/-! ## Entering scripts -/

variable {load : Loader} {ids : List String}

/-- While the script `y.2` is expanded on the stack `y.1`, the script `x.2` may be entered on the
stack `x.1`: the one is not on the stack yet and has an inclusion, wherever in its statements, that
is loaded under the identity of the other. -/
def EnteredFrom (load : Loader) (x y : List String × Checked) : Prop :=
  y.2.identity ∉ y.1 ∧ x.1 = y.1 ++ [y.2.identity] ∧
    Checked.Includes load.Names y.2 x.2

/-- The scripts that may still be entered, and the one that is entered now if it is none of the
loader. -/
def remaining (ids : List String) (x : List String × Checked) : Nat :=
  (ids.toFinset \ x.1.toFinset).card + if x.2.identity ∈ ids then 0 else 1

private theorem remaining_lt (hids : ∀ i s, load i = .ok s → s.identity ∈ ids)
    {x y : List String × Checked} (h : EnteredFrom load x y) :
    remaining ids x < remaining ids y := by
  obtain ⟨hmem, hstack, target, -, s, hs, hidentity⟩ := h
  have hx : x.2.identity ∈ ids := hidentity ▸ hids target s hs
  have hsub : ids.toFinset \ x.1.toFinset ⊆ ids.toFinset \ y.1.toFinset := by
    rw [hstack, List.toFinset_append]
    exact Finset.sdiff_subset_sdiff (Finset.Subset.refl _) Finset.subset_union_left
  rw [remaining, remaining, if_pos hx]
  by_cases hy : y.2.identity ∈ ids
  · rw [if_pos hy]
    refine Nat.add_lt_add_right (Finset.card_lt_card (Finset.ssubset_iff_of_subset hsub |>.2 ?_)) 0
    exact ⟨y.2.identity, by simp [hy, hmem], by simp [hstack]⟩
  · rw [if_neg hy]
    exact Nat.lt_succ_of_le (Finset.card_le_card hsub)

/-- Scripts cannot be entered one from another for ever. -/
theorem wellFounded_enteredFrom (hids : ∀ i s, load i = .ok s → s.identity ∈ ids) :
    WellFounded (EnteredFrom load) :=
  Subrelation.wf (remaining_lt hids) (measure (remaining ids)).wf

/-! ## What the statements of a script ask for -/

section

variable {enter enter' : Origin → String → Expanding (List Located)}

mutual

private theorem ofStatement_congr (s : Statement)
    (h : ∀ o, ∀ target ∈ s.inclusions, enter o target = enter' o target) :
    ofStatement enter s = ofStatement enter' s :=
  match s with
  | .directive o d => rfl
  | .inclusion o target => h o target (List.mem_singleton.2 rfl)
  | .define o flag value => rfl
  | .cond o flag negated thenBranch elseBranch => by
    simp only [Statement.inclusions, List.mem_append] at h
    rw [ofStatement, ofStatement,
      ofStatements_congr thenBranch fun o target ht => h o target (.inl ht),
      ofStatements_congr elseBranch fun o target ht => h o target (.inr ht)]

/-- Statements depend on what the identifiers that they include are entered with, and on nothing
else of the others. -/
theorem ofStatements_congr (ss : List Statement)
    (h : ∀ o, ∀ target ∈ Statement.inclusionsOfAll ss, enter o target = enter' o target) :
    ofStatements enter ss = ofStatements enter' ss :=
  match ss with
  | [] => rfl
  | s :: rest => by
    simp only [Statement.inclusionsOfAll, List.mem_append] at h
    rw [ofStatements, ofStatements, ofStatement_congr s fun o target ht => h o target (.inl ht),
      ofStatements_congr rest fun o target ht => h o target (.inr ht)]

end

end

/-- An expansion that is not cut off, and is no cycle, is made of those of the scripts that are
entered from it. -/
theorem ofScript_eq_of_enteredFrom {limit room : Nat} {stack : List String} {script : Checked}
    (hmem : script.identity ∉ stack) {next : Checked → Expanding (List Located)}
    (hnext : ∀ k, EnteredFrom load (stack ++ [script.identity], k) (stack, script) →
      next k = ofScript load limit room (stack ++ [script.identity]) k) :
    ofScript load limit (room + 1) stack script = modify (·.visit script) >>= fun _ =>
      ofStatements (fun o target => require load o target >>= next) script.statements := by
  rw [ofScript_of_notMem hmem]
  refine bind_congr fun _ => ofStatements_congr _ fun o target htarget => ?_
  refine on_ext fun p c => ?_
  rw [entering, on_bind, on_bind, on_require]
  rcases hinclude : c.include? load target with ⟨r, c'⟩
  cases r with
  | error failure => rfl
  | ok k =>
    simp only
    rw [hnext k ⟨hmem, rfl, target, htarget, Cache.names_of_include? hinclude⟩]

end Expansion

/-! ## More room -/

namespace Expanding

variable {α β : Type} {m m' : Expanding α} {f f' : α → Expanding β}

/-- The second computation goes as the first one, unless the first one exceeds its limit. -/
def Cut (m m' : Expanding α) : Prop :=
  ∀ p c, (∃ limit chain, (m.on p c).1 = .error (.depthExceeded limit chain)) ∨
    m'.on p c = m.on p c

theorem cut_refl (m : Expanding α) : Cut m m := fun _ _ => .inr rfl

theorem cut_exceeded (limit : Nat) (chain : List String) (m : Expanding α) :
    Cut (throw (.depthExceeded limit chain)) m := fun _ _ => .inl ⟨limit, chain, rfl⟩

theorem Cut.bind (hm : Cut m m') (hf : ∀ a, Cut (f a) (f' a)) : Cut (m >>= f) (m' >>= f') := by
  intro p c
  rw [on_bind, on_bind]
  rcases hm p c with ⟨limit, chain, hexceeded⟩ | hsame
  · refine .inl ⟨limit, chain, ?_⟩
    generalize m.on p c = result at hexceeded
    obtain ⟨result, c'⟩ := result
    obtain rfl : result = .error (.depthExceeded limit chain) := hexceeded
    rfl
  · rw [hsame]
    rcases m.on p c with ⟨result, c'⟩
    cases result with
    | error e => exact .inr rfl
    | ok r => exact hf r.1 r.2 c'

end Expanding

namespace Expansion

open Expanding

section

variable {enter enter' : Origin → String → Expanding (List Located)}

mutual

theorem cut_ofStatement (henter : ∀ o target, Cut (enter o target) (enter' o target))
    (s : Statement) : Cut (ofStatement enter s) (ofStatement enter' s) :=
  match s with
  | .directive o d => cut_refl _
  | .inclusion o target => henter o target
  | .define o flag value => cut_refl _
  | .cond o flag negated thenBranch elseBranch => by
    rw [ofStatement, ofStatement]
    refine (cut_refl get).bind fun p => ?_
    cases p.flags.get? flag with
    | none => exact cut_refl _
    | some value =>
      simp only
      split
      · exact cut_ofStatements henter thenBranch
      · exact cut_ofStatements henter elseBranch

theorem cut_ofStatements (henter : ∀ o target, Cut (enter o target) (enter' o target))
    (ss : List Statement) : Cut (ofStatements enter ss) (ofStatements enter' ss) :=
  match ss with
  | [] => cut_refl _
  | s :: rest => by
    rw [ofStatements, ofStatements]
    exact (cut_ofStatement henter s).bind fun _ =>
      (cut_ofStatements henter rest).bind fun _ => cut_refl _

end

end

/-- With more room an expansion goes as it did, unless it was cut off. The limits may differ: they
only stand in the error. -/
theorem cut_ofScript (load : Loader) (limit limit' : Nat) {room room' : Nat} (hroom : room ≤ room')
    (stack : List String) (script : Checked) :
    Cut (ofScript load limit room stack script) (ofScript load limit' room' stack script) := by
  induction room generalizing room' stack script with
  | zero =>
    by_cases hmem : script.identity ∈ stack
    · rw [ofScript_of_mem hmem, ofScript_of_mem hmem]
      exact cut_refl _
    · rw [ofScript_of_full hmem]
      exact cut_exceeded _ _ _
  | succ room ih =>
    by_cases hmem : script.identity ∈ stack
    · rw [ofScript_of_mem hmem, ofScript_of_mem hmem]
      exact cut_refl _
    · obtain ⟨room', rfl⟩ : ∃ below, room' = below + 1 := ⟨room' - 1, by omega⟩
      rw [ofScript_of_notMem hmem, ofScript_of_notMem hmem]
      exact (cut_refl _).bind fun _ => cut_ofStatements (fun o target =>
        (cut_refl _).bind fun included => ih (Nat.le_of_succ_le_succ hroom) _ _) _

/-! ## The limit -/

/-- A limit that is the number of scripts is not exceeded: a trail without repetitions is not that
long. -/
theorem not_depthExceeded {load : Loader} {ids : List String}
    (hids : ∀ i s, load i = .ok s → s.identity ∈ ids) (root : Checked) (c : Cache) {limit : Nat}
    (hlimit : ids.length ≤ limit) (limit' : Nat) (chain : List String) :
    (ofChecked load limit root c).1 ≠ .error (.depthExceeded limit' chain) := by
  intro he
  have hjustified : (ResolutionError.depthExceeded limit' chain).Justified load.Names root limit
      fun _ => True := by
    refine justified_of_ofChecked (I := fun _ => True) (fun k _ => ⟨fun o target _ => ?_, ?_⟩)
      trivial he
    · exact obeys_require (fun _ _ _ _ _ => trivial)
        (fun d k d' _ h => Cache.names_of_include? h) fun _ => trivial
    · exact .inr fun _ _ _ => trivial
  obtain ⟨-, hlength, hnodup, ks, htrail, rfl⟩ := hjustified
  have hloaded : ∀ target k, load.Names target k → k.identity ∈ ids := by
    rintro target k ⟨s, hs, hidentity⟩
    exact hidentity ▸ hids target s hs
  have hshort := htrail.length_le hloaded hnodup
  rw [List.length_map] at hlength
  omega

/-- An expansion ends without a limit, and the limit only cuts. The scripts of the loader have the
identities `ids`; the root and the cache may be any.

* An expansion of a script is made of those of the scripts that are entered from it, and scripts
  cannot be entered one from another for ever.
* If an expansion does not exceed its limit, it gives the same with every higher limit.
* A limit that is the number of scripts at least is never exceeded. -/
theorem limit_only_cuts {load : Loader} {ids : List String}
    (hids : ∀ i s, load i = .ok s → s.identity ∈ ids) (root : Checked) (c : Cache) :
    ((∀ limit room stack script, script.identity ∉ stack →
        ∀ next : Checked → Expanding (List Located),
          (∀ k, EnteredFrom load (stack ++ [script.identity], k) (stack, script) →
            next k = ofScript load limit room (stack ++ [script.identity]) k) →
          ofScript load limit (room + 1) stack script = modify (·.visit script) >>= fun _ =>
            ofStatements (fun o target => require load o target >>= next) script.statements) ∧
      WellFounded (EnteredFrom load)) ∧
    (∀ limit limit', limit ≤ limit' →
      (∀ l chain, (ofChecked load limit root c).1 ≠ .error (.depthExceeded l chain)) →
        ofChecked load limit' root c = ofChecked load limit root c) ∧
    ∀ limit, ids.length ≤ limit →
      ∀ l chain, (ofChecked load limit root c).1 ≠ .error (.depthExceeded l chain) := by
  refine ⟨⟨fun limit room stack script hmem next hnext => ofScript_eq_of_enteredFrom hmem hnext,
    wellFounded_enteredFrom hids⟩, fun limit limit' hle hnot => ?_, fun limit hlimit l chain =>
      not_depthExceeded hids root c hlimit l chain⟩
  rw [ofChecked_eq, ofChecked_eq]
  rcases cut_ofScript load limit limit' (Nat.succ_le_succ hle) [] root .start c with
    ⟨l, chain, hexceeded⟩ | hsame
  · refine (hnot l chain ?_).elim
    rw [ofChecked_eq, hexceeded]
    rfl
  · rw [hsame]

/-- A script that includes another one is cut off only by the limit that allows no inclusion. -/
theorem limit_only_cuts_twice : ∃ root, Shelf.twice.load.checked? "main" = some root ∧
    (ofChecked Shelf.twice.load 0 root .empty).1 =
      .error (.depthExceeded 0 ["main", "part"]) ∧
    (∀ limit, 1 ≤ limit → ofChecked Shelf.twice.load limit root .empty =
      ofChecked Shelf.twice.load 1 root .empty) ∧
    ∀ limit, 2 ≤ limit → ∀ l chain, (ofChecked Shelf.twice.load limit root .empty).1 ≠
      .error (.depthExceeded l chain) := by
  obtain ⟨root, hroot, hexceeded⟩ : ∃ root, Shelf.twice.load.checked? "main" = some root ∧
      (ofChecked Shelf.twice.load 0 root .empty).1 =
        .error (.depthExceeded 0 ["main", "part"]) :=
    Shelf.exists_ofChecked (P := (· = .error (.depthExceeded 0 ["main", "part"])))
      (by decide +kernel)
  obtain ⟨root', hroot', hok⟩ : ∃ root, Shelf.twice.load.checked? "main" = some root ∧
      (ofChecked Shelf.twice.load 1 root .empty).1.isOk = true :=
    Shelf.exists_ofChecked (P := fun result => result.isOk = true) (by decide +kernel)
  obtain rfl : root = root' := Option.some.inj (hroot.symm.trans hroot')
  have hlength : Shelf.twice.texts.keys.length = 2 := by decide +kernel
  have hids : ∀ i s, Shelf.twice.load i = .ok s → s.identity ∈ Shelf.twice.texts.keys :=
    fun _ _ => Shelf.identity_mem_keys
  obtain ⟨-, hlarger, hnever⟩ := limit_only_cuts hids root .empty
  refine ⟨root, hroot, hexceeded, fun limit hlimit => hlarger 1 limit hlimit ?_,
    fun limit hlimit => hnever limit (hlength ▸ hlimit)⟩
  intro l chain herror
  rw [herror] at hok
  cases hok

end Expansion

end Entitle
