import Entitle.Proofs.Convergence
import Entitle.Proofs.Endings

/-!
# What a purge leaves

A purge takes away what a script does not declare. Seen from a node and a target, that is a
principal, an effect and restrictions, it leaves the privileges that are granted or denied there
anywhere in the script, before or after the purge. Other targets and other nodes keep theirs, and
nothing else changes.

## Main definitions

* `Target`: who is meant by a permission, and under which restrictions.
* `State.Holds`: a privilege is held on a node for a target.
* `Expansion.Declares`: a script declares a privilege on a node for a target.

## Main statements

* `State.holds_revokeEach_excess`: what is held after everything but `keep` was revoked.
* `Expansion.declares_iff`: what a purge keeps is what the script declares.
* `Plan.attempt_purge`: what a purge of a script does.
-/
namespace Entitle

/-! ## What is held and what is declared -/

/-- Who is meant by a permission, whether it is granted or denied, and under which restrictions. -/
structure Target where
  principal : String
  effect : Effect
  restrictions : Table String
  deriving DecidableEq, Repr

/-- The target of a permission. -/
def Permission.target (p : Permission) : Target :=
  ⟨p.principal, p.effect, p.restrictions⟩

theorem Permission.sameTarget_iff_target {a b : Permission} :
    a.sameTarget b = true ↔ a.target = b.target := by
  rw [sameTarget_iff, target, target, Target.mk.injEq]

/-- The privilege is held on the node for the target. -/
def State.Holds (s : State) (path : String) (t : Target) (privilege : String) : Prop :=
  ∃ n, s.nodes.get? path = some n ∧ ∃ p ∈ n.acl, p.target = t ∧ privilege ∈ p.privileges

/-- The script declares the privilege on the node for the target. -/
def Expansion.Declares (e : Expansion) (path : String) (t : Target) (privilege : String) : Prop :=
  ∃ d ∈ e.directives, ∃ ps restrictions,
    d.directive = .permission t.effect ps path t.principal restrictions ∧
      Table.ofList restrictions = t.restrictions ∧ privilege ∈ ps

/-- A privilege is declared if it is part of a grant of the script. -/
theorem Expansion.declares_iff {e : Expansion} {path privilege : String} {t : Target} :
    e.Declares path t privilege ↔ ∃ g ∈ grants e.directives,
      g.path = path ∧ g.entry.target = t ∧ privilege ∈ g.entry.privileges := by
  constructor
  · rintro ⟨d, hd, ps, restrictions, hdirective, hrestrictions, hmem⟩
    refine ⟨⟨path, .ofLists t.principal t.effect ps restrictions⟩, ?_, rfl, ?_, ?_⟩
    · exact List.mem_filterMap.2 ⟨d, hd, by rw [hdirective]; rfl⟩
    · simp [Permission.target, Permission.ofLists, hrestrictions]
    · exact NameSet.mem_ofList.2 hmem
  · rintro ⟨g, hg, rfl, rfl, hmem⟩
    obtain ⟨d, hd, hgrant⟩ := List.mem_filterMap.1 hg
    cases hdirective : d.directive with
    | permission effect ps path principal restrictions =>
      rw [hdirective] at hgrant
      cases hgrant
      exact ⟨d, hd, ps, restrictions, hdirective, rfl, NameSet.mem_ofList.1 hmem⟩
    | _ => rw [hdirective] at hgrant; cases hgrant

instance (s : State) (path : String) (t : Target) (privilege : String) :
    Decidable (s.Holds path t privilege) :=
  decidable_of_iff (∃ n ∈ s.nodes.get? path, ∃ p ∈ n.acl, p.target = t ∧
    p.privileges.contains privilege = true) (by simp [State.Holds])

instance (e : Expansion) (path : String) (t : Target) (privilege : String) :
    Decidable (e.Declares path t privilege) :=
  decidable_of_iff (∃ g ∈ Expansion.grants e.directives, g.path = path ∧ g.entry.target = t ∧
    g.entry.privileges.contains privilege = true) (by simp [Expansion.declares_iff])

/-! ## Revoking everything else -/

namespace State

variable {s : State}

/-- Revocations leave the nodes and their properties as they are. -/
theorem map_properties_revokeEach (batch : List Grant) (node : String) :
    ((s.revokeEach batch).nodes.get? node).map (·.properties) =
      (s.nodes.get? node).map (·.properties) := by
  rw [get?_revokeEach, Option.map_map]
  refine congrArg (Option.map · _) (funext fun n => ?_)
  exact Node.properties_foldl_revoke _ n

/-- After everything but `keep` was revoked in a place for a principal, there is held what was held
before, as far as it is kept or not concerned. -/
theorem holds_revokeEach_excess {path node privilege : String} {principal : Option String}
    {keep : List Grant} {t : Target} :
    (s.revokeEach (Overlay.empty.excess s path principal keep)).Holds node t privilege ↔
      s.Holds node t privilege ∧ (Path.within node path = true →
        principal.all (· == t.principal) = true →
        ∃ g ∈ keep, g.path = node ∧ g.entry.target = t ∧ privilege ∈ g.entry.privileges) := by
  constructor
  · rintro ⟨n', hn', p, hp, rfl, hmem⟩
    obtain ⟨n, hn⟩ := hasNode_eq_true_iff.1
      ((hasNode_revokeEach _ node).symm.trans (hasNode_eq_true_iff.2 ⟨n', hn'⟩))
    refine ⟨?_, fun hwithin hprincipal => ?_⟩
    · obtain ⟨q, hq, htarget, hprivileges⟩ := mem_acl_revokeEach hn hn' hp
      exact ⟨n, hn, q, hq, Permission.sameTarget_iff_target.1 htarget, (hprivileges _ hmem).1⟩
    · -- nothing is left that the purge would still find
      obtain ⟨g, hg, hpath, htarget, hgmem⟩ := Action.settled_purge.1
        (Action.settled_purge_revokeEach path principal keep) node n' p hn' hwithin hp hprincipal
        privilege hmem
      exact ⟨g, hg, hpath, Permission.sameTarget_iff_target.1 htarget, hgmem⟩
  · rintro ⟨⟨n, hn, q, hq, rfl, hmem⟩, hkept⟩
    obtain ⟨n', hn'⟩ := hasNode_eq_true_iff.1
      ((hasNode_revokeEach (Overlay.empty.excess s path principal keep) node).trans
        (hasNode_eq_true_iff.2 ⟨n, hn⟩))
    -- the permission with this privilege alone stays covered
    have hcovered : n'.acl.any (·.covers { q with privileges := .ofList [privilege] }) = true := by
      refine any_covers_revokeEach_excess ?_ (fun hwithin => ?_) hn hn' ?_
      · exact NameSet.isEmpty_eq_false_iff.2
          ⟨privilege, NameSet.mem_ofList.2 (List.mem_singleton.2 rfl)⟩
      · refine Overlay.excess?_eq_none_iff.2 fun hprincipal x hx => ?_
        obtain rfl := List.mem_singleton.1 (NameSet.mem_ofList.1 hx)
        obtain ⟨g, hg, hpath, htarget, hgmem⟩ := hkept hwithin hprincipal
        exact ⟨g, hg, hpath, Permission.sameTarget_iff_target.2 htarget, hgmem⟩
      · refine List.any_eq_true.2 ⟨q, hq, Permission.covers_iff.2 ⟨?_, fun x hx => ?_⟩⟩
        · exact Permission.sameTarget_iff_target.2 rfl
        · obtain rfl := List.mem_singleton.1 (NameSet.mem_ofList.1 hx)
          exact hmem
    obtain ⟨p, hp, hcovers⟩ := List.any_eq_true.1 hcovered
    obtain ⟨htarget, hsub⟩ := Permission.covers_iff.1 hcovers
    refine ⟨n', hn', p, hp, (Permission.sameTarget_iff_target.1 htarget).trans rfl, hsub _ ?_⟩
    exact NameSet.mem_ofList.2 (List.mem_singleton.2 rfl)

end State

/-! ## Purges of scripts -/

section

variable {σ : Type} {w : World σ} {view : σ → Repository}

/-- A purge that does not fail revokes everything but what it keeps. -/
theorem World.Serves.state_attempt_purge (hw : w.Serves view) {path : String}
    {principal : Option String} {keep : List Grant} {x : σ}
    (hfailed : (((Action.purge path principal keep).attempt .apply .empty).through w
      x).result.1.isFailed = false) :
    (view (((Action.purge path principal keep).attempt .apply .empty).through w x).world).state =
      (view x).state.revokeEach
        (Overlay.empty.excess (view x).state path principal keep) := by
  have hends := hw.ends_attempt (.purge path principal keep) x
  simp only at hends
  generalize ((Action.purge path principal keep).attempt .apply .empty).through w x = p at *
  generalize p.result.1 = outcome at *
  generalize p.exchanges = es at *
  generalize view p.world = r at *
  cases hends with
  | failed failure _ => cases hfailed
  | skipped reason _ hverdict =>
    rw [Action.verdict_purge_empty] at hverdict
    split at hverdict
    · next hnone =>
      rw [hnone]
      rfl
    · cases hverdict
  | applied _ hverdict hanswer =>
    cases Action.due_purge hverdict
    exact (State.revokeAll_eq_ok (State.done_eq_ok hanswer)).2

/-- A purge of a script that does not fail leaves exactly what the script declares. In its place and
for its principal, a privilege is held afterwards if it was held before and the script declares it
there, before or after the purge; anywhere else nothing is different. Principals, nodes and
properties are the same, and no permission is left without privileges. -/
theorem Plan.attempt_purge (hw : w.Serves view) {e : Expansion} {i : Nat} {d : Located}
    {a : PlannedAction} {path : String} {principal : Option String}
    (hd : e.directives[i]? = some d) (hpurge : d.directive = .purge path principal)
    (ha : (ofExpansion e).actions[i]? = some a) {x : σ} (hstate : (view x).state.WellFormed)
    (hfailed : ((a.action.attempt .apply .empty).through w x).result.1.isFailed = false) :
    let before := (view x).state
    let after := (view ((a.action.attempt .apply .empty).through w x).world).state
    (∀ node t privilege, after.Holds node t privilege ↔ before.Holds node t privilege ∧
        (Path.within node path = true → principal.all (· == t.principal) = true →
          e.Declares node t privilege)) ∧
      after.principals = before.principals ∧
      (∀ node, (after.nodes.get? node).map (·.properties) =
        (before.nodes.get? node).map (·.properties)) ∧
      ∀ node n, after.nodes.get? node = some n → ∀ p ∈ n.acl, p.privileges.isEmpty = false := by
  intro before after
  obtain rfl : a = ⟨.purge path principal (Grant.sortedOf
      ((Expansion.grants e.directives).filter (Grant.concerns path principal))), d.origin⟩ := by
    simp only [ofExpansion, List.getElem?_map, hd, Option.map_some, Option.some.injEq] at ha
    rw [← ha, hpurge]
    rfl
  have hafter : after = _ := hw.state_attempt_purge hfailed
  rw [hafter]
  refine ⟨fun node t privilege => ?_, State.principals_revokeEach _, fun node => ?_,
    fun node n hn => (State.acls_revokeEach hstate.acls hn).nonempty⟩
  · rw [State.holds_revokeEach_excess, Expansion.declares_iff]
    refine and_congr_right fun _ => forall_congr' fun hwithin => forall_congr' fun hprincipal =>
      exists_congr fun g => ?_
    -- in its place and for its principal, a purge concerns every grant
    rw [Grant.mem_sortedOf, List.mem_filter, and_assoc]
    refine and_congr_right fun _ => and_iff_right_of_imp ?_
    rintro ⟨rfl, rfl, -⟩
    rw [Grant.concerns, Bool.and_eq_true]
    exact ⟨hwithin, hprincipal⟩
  · exact State.map_properties_revokeEach _ node

end

/-- A script that purges a path before it grants something there. -/
def Expansion.onboarding : Expansion where
  identity := "main"
  directives := [⟨⟨"main", 1, 1⟩, .purge "/a" none⟩,
    ⟨⟨"main", 1, 13⟩, .permission .allow ["jcr:read", "jcr:write"] "/a" "g" [("rep:glob", "*")]⟩]
  sources := []

/-- What is granted later in the script is left, and what is not is taken away. -/
theorem Plan.attempt_purge_onboarding :
    let purge : PlannedAction :=
      ⟨.purge "/a" none [⟨"/a", .ofLists "g" .allow ["jcr:read", "jcr:write"] [("rep:glob", "*")]⟩],
        ⟨"main", 1, 1⟩⟩
    let b := Bench.ofRepository ⟨.onboarding, 0, none⟩ 1000
    let p := (purge.action.attempt .apply .empty).through (Bench.world Host.bare) b
    let t : Target := ⟨"g", .allow, .ofList [("rep:glob", "*")]⟩
    (ofExpansion .onboarding).actions[0]? = some purge ∧ b.repository.state.WellFormed ∧
      p.result.1 = .applied "revoked 2 entries under '/a'" ∧
      b.repository.state.Holds "/a" t "jcr:all" ∧
      p.world.repository.state.Holds "/a" t "jcr:read" ∧
      ¬ p.world.repository.state.Holds "/a" t "jcr:all" := by
  intro purge b p t
  have haction : (ofExpansion .onboarding).actions[0]? = some purge := by decide +kernel
  have hstate : b.repository.state.WellFormed := by decide +kernel
  have houtcome : p.result.1 = .applied "revoked 2 entries under '/a'" := by decide +kernel
  have hfailed : p.result.1.isFailed = false := by rw [houtcome]; rfl
  obtain ⟨hholds, -⟩ := attempt_purge (Bench.serves_world Host.bare) (e := .onboarding) (i := 0)
    rfl rfl haction hstate hfailed
  refine ⟨haction, hstate, houtcome, by decide +kernel, (hholds ..).2 ?_, fun hall => ?_⟩
  · decide +kernel
  · exact absurd ((hholds ..).1 hall).2 (by decide +kernel)

end Entitle
