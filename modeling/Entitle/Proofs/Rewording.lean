import Mathlib.Data.List.Forall2
import Mathlib.Data.List.Sort
import Entitle.Plan.Compile
import Entitle.Proofs.Permissions
import Entitle.Proofs.Rearranging

/-!
# Permissions in other words

A script may name privileges in any order and more than once, and restrictions in any order. None of
this is left in its plan: privileges become sets, restrictions become tables, and what a purge keeps
is a sorted list without repetitions. So scripts that only differ in this come down to the same
plan, and what a purge keeps is known from the set of the permissions that the script states,
wherever and however often it states them.

## Main definitions

* `Restrictions.Reordered`: the same restrictions in another order.
* `Directive.Reworded`: the same directive in other words.
* `Expansion.Restates`: a script states all permissions of another one.

## Main statements

* `Table.ofList_perm`: different keys can be listed in any order.
* `Grant.sortedOf_congr`: the sorted list of a set of grants.
* `Plan.mem_keep_iff`: what a purge of a plan keeps.
* `Plan.ofExpansion_canonical`: plans do not show how permissions are worded.
-/
namespace Entitle

/-! ## Other words -/

/-- The same restrictions, in another order if their names are distinct. Of restrictions with the
same name the last one counts, so their order matters. -/
def Restrictions.Reordered (rs rs' : List (String × String)) : Prop :=
  rs = rs' ∨ (rs.map (·.1)).Nodup ∧ rs.Perm rs'

/-- The same directive in other words. Only what states a permission or checks one can be worded in
several ways. -/
inductive Directive.Reworded : Directive → Directive → Prop
  | same (d : Directive) : Reworded d d
  | permission {effect : Effect} {ps ps' : List String} {path principal : String}
    {rs rs' : List (String × String)} (hps : ∀ x, x ∈ ps ↔ x ∈ ps')
    (hrs : Restrictions.Reordered rs rs') :
    Reworded (.permission effect ps path principal rs) (.permission effect ps' path principal rs')
  | check {effect : Effect} {ps ps' : List String} {path principal : String}
    (hps : ∀ x, x ∈ ps ↔ x ∈ ps') :
    Reworded (.check (.permission effect ps path principal))
      (.check (.permission effect ps' path principal))

/-- The same directive in other words, in the same place. -/
def Located.Reworded (d d' : Located) : Prop :=
  d.origin = d'.origin ∧ d.directive.Reworded d'.directive

/-- Every permission that `e` states is also stated by `e'`, at any place and in any words. -/
def Expansion.Restates (e' e : Expansion) : Prop :=
  ∀ d ∈ e.directives, d.directive.grant?.isSome = true →
    ∃ d' ∈ e'.directives, d.directive.Reworded d'.directive

/-! ## Sets, tables and sorted lists -/

/-- Entries with different keys make the same table in any order. -/
theorem Table.ofList_perm {β : Type} {es es' : List (String × β)} (hes : (es.map (·.1)).Nodup)
    (h : es.Perm es') : ofList es = ofList es' := by
  have hes' : (es'.map (·.1)).Nodup := (h.map _).nodup_iff.1 hes
  refine ext_get? fun k => Option.ext fun v => ?_
  rw [ofList, ofList, get?_foldl_insert hes, get?_foldl_insert hes', get?_empty, Option.or_none,
    Option.or_none, lookup_eq_some_iff_mem hes, lookup_eq_some_iff_mem hes', h.mem_iff]

private theorem Restrictions.Reordered.ofList_eq {rs rs' : List (String × String)}
    (h : Reordered rs rs') : Table.ofList rs = Table.ofList rs' := by
  rcases h with rfl | ⟨hrs, hperm⟩
  · rfl
  · exact Table.ofList_perm hrs hperm

theorem NameSet.ofList_congr {xs xs' : List String} (h : ∀ x, x ∈ xs ↔ x ∈ xs') :
    ofList xs = ofList xs' :=
  ext_mem fun x => by rw [mem_ofList, mem_ofList, h]

/-- The sorted list of grants shows which grants there are, and nothing else. -/
theorem Grant.sortedOf_congr {gs gs' : List Grant} (h : ∀ g, g ∈ gs ↔ g ∈ gs') :
    sortedOf gs = sortedOf gs' := by
  have : Std.Irrefl fun a b : Grant => a.compare b = .lt := by
    refine ⟨fun a hlt => ?_⟩
    have hself : a.compare a = .eq := Std.ReflCmp.compare_self
    rw [hself] at hlt
    cases hlt
  have : Std.Antisymm fun a b : Grant => a.compare b = .lt := by
    refine ⟨fun a b hab hba => ?_⟩
    rw [Std.OrientedCmp.gt_of_lt hab] at hba
    cases hba
  refine (sorted_sortedOf gs).eq_of_mem_iff (sorted_sortedOf gs') fun g => ?_
  rw [mem_sortedOf, mem_sortedOf, h]

/-! ## Actions -/

namespace Directive

variable {d d' : Directive}

/-- A permission is the same in other words. -/
theorem Reworded.grant?_eq (h : Reworded d d') : d.grant? = d'.grant? := by
  cases h with
  | same => rfl
  | permission hps hrs =>
    simp only [grant?, Permission.ofLists, NameSet.ofList_congr hps, hrs.ofList_eq]
  | check => rfl

/-- The action of a directive is the same in other words. -/
theorem Reworded.action_eq (h : Reworded d d') (grants : List Grant) :
    Action.ofDirective grants d = Action.ofDirective grants d' := by
  cases h with
  | same => rfl
  | permission hps hrs =>
    simp only [Action.ofDirective, Permission.ofLists, NameSet.ofList_congr hps, hrs.ofList_eq]
  | check hps => simp only [Action.ofDirective, Permission.ofLists, NameSet.ofList_congr hps]

end Directive

/-- Lists that correspond member by member have the same image, if all pairs of members do. -/
theorem map_eq_map_of_forall₂ {α β γ : Type} {R : α → β → Prop} {f : α → γ} {g : β → γ}
    {xs : List α} {ys : List β} (h : List.Forall₂ R xs ys) (hR : ∀ x y, R x y → f x = g y) :
    xs.map f = ys.map g := by
  induction h with
  | nil => rfl
  | cons hxy _ ih => rw [List.map_cons, List.map_cons, hR _ _ hxy, ih]

namespace Expansion

variable {e e' : Expansion}

/-- A script states the same permissions in other words. -/
theorem grants_eq_of_reworded {ds ds' : List Located} (h : List.Forall₂ Located.Reworded ds ds') :
    grants ds = grants ds' := by
  have hmap : ds.map (·.directive.grant?) = ds'.map (·.directive.grant?) :=
    map_eq_map_of_forall₂ h fun _ _ hd => hd.2.grant?_eq
  calc grants ds
      = (ds.map (·.directive.grant?)).filterMap id := by rw [List.filterMap_map]; rfl
    _ = grants ds' := by rw [hmap, List.filterMap_map]; rfl

/-- A script that restates another one grants all that the other one grants. -/
theorem Restates.mem_grants (h : e'.Restates e) {g : Grant} (hg : g ∈ grants e.directives) :
    g ∈ grants e'.directives := by
  obtain ⟨d, hd, hgrant⟩ := List.mem_filterMap.1 hg
  obtain ⟨d', hd', hreworded⟩ := h d hd (by rw [hgrant, Option.isSome_some])
  exact List.mem_filterMap.2 ⟨d', hd', hreworded.grant?_eq.symm.trans hgrant⟩

end Expansion

/-! ## Plans -/

namespace Plan

variable {e e' : Expansion} {path : String} {principal : Option String} {keep keep' : List Grant}
  {o o' : Origin}

/-- What a purge of a plan keeps is computed from all permissions of the script. -/
theorem keep_eq (h : ⟨.purge path principal keep, o⟩ ∈ (ofExpansion e).actions) :
    keep = Grant.sortedOf
      ((Expansion.grants e.directives).filter (Grant.concerns path principal)) := by
  obtain ⟨d, -, hd⟩ := List.mem_map.1 h
  obtain ⟨origin, directive⟩ := d
  cases directive with
  | purge => cases hd; rfl
  | check c => cases c <;> cases hd
  | _ => cases hd

/-- A purge of a plan keeps the permissions that the script states in its place and for its
principal, in increasing order. -/
theorem mem_keep_iff (h : ⟨.purge path principal keep, o⟩ ∈ (ofExpansion e).actions) :
    keep.Pairwise (fun a b => a.compare b = .lt) ∧ ∀ g, g ∈ keep ↔
      (∃ d ∈ e.directives, d.directive.grant? = some g) ∧ g.concerns path principal = true := by
  rw [keep_eq h]
  refine ⟨Grant.sorted_sortedOf _, fun g => ?_⟩
  rw [Grant.mem_sortedOf, List.mem_filter, Expansion.grants, List.mem_filterMap]

/-- Permissions compile to one form. Scripts in which privileges are listed in another order or
repeated, or distinct restrictions are listed in another order, have the same plan. What a purge
keeps are the permissions in its place, strictly increasing, and it is the same in scripts that
state the same permissions: it does not matter in which order, how often, before or after the purge,
or in which words. -/
theorem ofExpansion_canonical (e e' : Expansion) :
    (e.identity = e'.identity → e.sources = e'.sources →
      List.Forall₂ Located.Reworded e.directives e'.directives →
      ofExpansion e = ofExpansion e') ∧
    (∀ path principal keep o, ⟨.purge path principal keep, o⟩ ∈ (ofExpansion e).actions →
      keep.Pairwise (fun a b => a.compare b = .lt) ∧
      (∀ g, g ∈ keep ↔ (∃ d ∈ e.directives, d.directive.grant? = some g) ∧
        g.concerns path principal = true) ∧
      (e'.Restates e → e.Restates e' → ∀ keep' o',
        ⟨.purge path principal keep', o'⟩ ∈ (ofExpansion e').actions → keep = keep')) := by
  constructor
  · intro hidentity hsources hdirectives
    have hactions : (ofExpansion e).actions = (ofExpansion e').actions := by
      refine map_eq_map_of_forall₂ hdirectives fun d d' hd => ?_
      rw [Expansion.grants_eq_of_reworded hdirectives, hd.1, hd.2.action_eq]
    rw [ofExpansion, mk.injEq]
    exact ⟨hidentity, congrArg bundleChecksum hsources, hsources, hactions⟩
  · intro path principal keep o h
    obtain ⟨hsorted, hmem⟩ := mem_keep_iff h
    refine ⟨hsorted, hmem, fun hstates hstates' keep' o' h' => ?_⟩
    rw [keep_eq h, keep_eq h']
    refine Grant.sortedOf_congr fun g => ?_
    rw [List.mem_filter, List.mem_filter]
    exact and_congr_left fun _ => ⟨hstates.mem_grants, hstates'.mem_grants⟩

end Plan

/-- A script that states two permissions, purges their places and checks one of them. -/
def Expansion.terse : Expansion where
  identity := "main"
  directives := [⟨⟨"main", 1, 1⟩, .permission .allow ["b", "a"] "/x" "g" [("k", "1"), ("j", "2")]⟩,
    ⟨⟨"main", 2, 1⟩, .permission .deny ["c"] "/x/y" "h" []⟩, ⟨⟨"main", 3, 1⟩, .purge "/" none⟩,
    ⟨⟨"main", 4, 1⟩, .check (.permission .deny ["c"] "/x/y" "h")⟩]
  sources := []

/-- The same script in other words. -/
def Expansion.wordy : Expansion where
  identity := "main"
  directives := [
    ⟨⟨"main", 1, 1⟩, .permission .allow ["a", "b", "a"] "/x" "g" [("j", "2"), ("k", "1")]⟩,
    ⟨⟨"main", 2, 1⟩, .permission .deny ["c", "c"] "/x/y" "h" []⟩, ⟨⟨"main", 3, 1⟩, .purge "/" none⟩,
    ⟨⟨"main", 4, 1⟩, .check (.permission .deny ["c", "c"] "/x/y" "h")⟩]
  sources := []

/-- A script that purges first, and then states the same permissions the other way round, one of
them twice. -/
def Expansion.upsideDown : Expansion where
  identity := "other"
  directives := [⟨⟨"main", 1, 1⟩, .purge "/" none⟩,
    ⟨⟨"main", 2, 1⟩, .permission .deny ["c"] "/x/y" "h" []⟩,
    ⟨⟨"main", 3, 1⟩, .permission .allow ["a", "b"] "/x" "g" [("j", "2"), ("k", "1")]⟩,
    ⟨⟨"main", 4, 1⟩, .permission .deny ["c", "c"] "/x/y" "h" []⟩]
  sources := []

theorem Plan.ofExpansion_canonical_terse :
    let keep : List Grant := [⟨"/x", .ofLists "g" .allow ["a", "b"] [("j", "2"), ("k", "1")]⟩,
      ⟨"/x/y", .ofLists "h" .deny ["c"] []⟩]
    ofExpansion .terse = ofExpansion .wordy ∧
      (⟨.purge "/" none keep, ⟨"main", 3, 1⟩⟩ : PlannedAction) ∈ (ofExpansion .terse).actions ∧
      Expansion.upsideDown.Restates .terse ∧ Expansion.terse.Restates .upsideDown ∧
      ∀ keep' o', ⟨.purge "/" none keep', o'⟩ ∈ (ofExpansion .upsideDown).actions →
        keep = keep' := by
  intro keep
  have hab : ∀ x, x ∈ ["b", "a"] ↔ x ∈ ["a", "b", "a"] := by simp [or_comm]
  have hab' : ∀ x, x ∈ ["b", "a"] ↔ x ∈ ["a", "b"] := by simp [or_comm]
  have hc : ∀ x, x ∈ ["c"] ↔ x ∈ ["c", "c"] := by simp
  have hkj : Restrictions.Reordered [("k", "1"), ("j", "2")] [("j", "2"), ("k", "1")] :=
    .inr ⟨by decide, .swap _ _ _⟩
  have hjk : Restrictions.Reordered [("j", "2"), ("k", "1")] [("k", "1"), ("j", "2")] :=
    .inr ⟨by decide, .swap _ _ _⟩
  have hwords : List.Forall₂ Located.Reworded Expansion.terse.directives
      Expansion.wordy.directives :=
    .cons ⟨rfl, .permission hab hkj⟩ (.cons ⟨rfl, .permission hc (.inl rfl)⟩
      (.cons ⟨rfl, .same _⟩ (.cons ⟨rfl, .check hc⟩ .nil)))
  have hpurge : (⟨.purge "/" none keep, ⟨"main", 3, 1⟩⟩ : PlannedAction) ∈
      (ofExpansion .terse).actions := by decide +kernel
  have hstates : Expansion.upsideDown.Restates .terse := by
    intro d hd hgrant
    simp only [Expansion.terse, List.mem_cons, List.not_mem_nil, or_false] at hd
    rcases hd with rfl | rfl | rfl | rfl
    · exact ⟨_, .tail _ (.tail _ (.head _)), .permission hab' hkj⟩
    · exact ⟨_, .tail _ (.head _), .same _⟩
    · cases hgrant
    · cases hgrant
  have hstates' : Expansion.terse.Restates .upsideDown := by
    intro d hd hgrant
    simp only [Expansion.upsideDown, List.mem_cons, List.not_mem_nil, or_false] at hd
    rcases hd with rfl | rfl | rfl | rfl
    · cases hgrant
    · exact ⟨_, .tail _ (.head _), .same _⟩
    · exact ⟨_, .head _, .permission (fun x => (hab' x).symm) hjk⟩
    · exact ⟨_, .tail _ (.head _), .permission (fun x => (hc x).symm) (.inl rfl)⟩
  obtain ⟨hsame, -⟩ := ofExpansion_canonical .terse .wordy
  obtain ⟨-, -, hkeep⟩ :=
    (ofExpansion_canonical .terse .upsideDown).2 "/" none keep ⟨"main", 3, 1⟩ hpurge
  exact ⟨hsame rfl rfl hwords, hpurge, hstates, hstates', hkeep hstates hstates'⟩

end Entitle
