import Entitle.Proofs.Stepwise
import Entitle.Proofs.Permissions

/-!
# Convergence

A plan that only asks for things to be there can be interrupted and started again. What one of its
actions brings about is never undone by another one: principals and members stay, properties keep
their values, what is granted stays covered, and a purge leaves just what the plan itself grants.
So when the plan runs again from where it was interrupted, the actions that were done find nothing
to do, and the others go on as if there had been no interruption.

## Main definitions

* `Action.isDeclarative`, `Action.contradicts`, `Plan.Declarative`: plans that ask for things to be
  there, and never for two values of one property.
* `Coherent`: what the actions of such a plan have to do with each other.
* `State.Advances`: what a run of such actions does to a state.

## Main statements

* `Action.settled_of_due`: after a change that was due there is nothing left to do.
* `Coherent.step`: an action that goes through is settled afterwards.
* `Coherent.settled_of_advances`: what is settled stays settled.
* `Plan.execute_resume`: a plan that is interrupted and started again converges.
-/
namespace Entitle

/-! ## Plans -/

namespace Action

/-- Does the action ask for something to be there, or for nothing else to be granted? -/
def isDeclarative : Action → Bool
  | ensure .. | addMember .. | setPermission .. | setProperty .. | purge .. | checkPresent .. =>
    true
  | _ => false

/-- Do the actions ask for different values of the same property? -/
def contradicts : Action → Action → Bool
  | setProperty path key value, setProperty path' key' value' =>
    path == path' && key == key' && value != value'
  | _, _ => false

end Action

/-- All actions of the plan are declarative, and no two of them contradict each other. -/
structure Plan.Declarative (plan : Plan) : Prop where
  declarative : ∀ a ∈ plan.actions, a.action.isDeclarative = true
  consistent : ∀ a ∈ plan.actions, ∀ b ∈ plan.actions, a.action.contradicts b.action = false

instance (plan : Plan) : Decidable plan.Declarative :=
  decidable_of_iff ((∀ a ∈ plan.actions, a.action.isDeclarative = true) ∧
    ∀ a ∈ plan.actions, ∀ b ∈ plan.actions, a.action.contradicts b.action = false)
    ⟨fun h => ⟨h.1, h.2⟩, fun h => ⟨h.1, h.2⟩⟩

/-- Actions that ask for things to be there without contradiction; every permission has privileges,
and every purge keeps the permissions in its place. -/
structure Coherent (actions : List Action) : Prop where
  declarative : ∀ a ∈ actions, a.isDeclarative = true
  consistent : ∀ a ∈ actions, ∀ b ∈ actions, a.contradicts b = false
  nonempty : ∀ {path entry}, .setPermission path entry ∈ actions → entry.privileges.isEmpty = false
  keep : ∀ {path principal keep}, .purge path principal keep ∈ actions → ∀ g : Grant,
    g ∈ keep ↔ .setPermission g.path g.entry ∈ actions ∧ g.concerns path principal = true

/-- The grants of a script are the permissions that its plan sets. -/
theorem Expansion.mem_grants_iff {directives : List Located} {all : List Grant} {g : Grant} :
    g ∈ grants directives ↔ .setPermission g.path g.entry ∈
      directives.map fun d => Action.ofDirective all d.directive := by
  rw [grants, List.mem_filterMap, List.mem_map]
  refine exists_congr fun d => and_congr_right fun _ => ?_
  obtain ⟨path, entry⟩ := g
  cases d.directive with
  | permission effect ps path' principal rs => simp [Directive.grant?, Action.ofDirective]
  | check check => cases check <;> simp [Directive.grant?, Action.ofDirective]
  | _ => simp [Directive.grant?, Action.ofDirective]

/-- The actions of a compiled plan are coherent, if the plan is declarative. -/
theorem Plan.Declarative.coherent {load : Loader} {limit : Nat} {identifier : String}
    {cache : Cache} {plan : Plan}
    (hplan : (compileScript load limit identifier cache).1 = .ok plan) (h : plan.Declarative) :
    Coherent (plan.actions.map (·.action)) := by
  obtain ⟨script, root, c', e, -, -, he, rfl⟩ := compileScript_eq_ok hplan
  have hsound := Expansion.sound_of_ofChecked he
  have hactions : (Plan.ofExpansion e).actions.map (·.action) =
      e.directives.map fun d =>
        Action.ofDirective (Expansion.grants e.directives) d.directive := by
    simp [Plan.ofExpansion]
  refine ⟨?_, ?_, fun {path entry} hmem => ?_, fun {path principal keep} hmem g => ?_⟩
  · exact List.forall_mem_map.2 h.declarative
  · exact List.forall_mem_map.2 fun a ha => List.forall_mem_map.2 (h.consistent a ha)
  · rw [hactions] at hmem
    obtain ⟨d, hd, heq⟩ := List.mem_map.1 hmem
    have hproblems := hsound d hd
    cases hdirective : d.directive with
    | permission effect ps path' principal rs =>
      rw [hdirective] at heq hproblems
      simp only [Directive.problems, List.append_eq_nil_iff] at hproblems
      cases heq
      exact Permission.privileges_ofLists hproblems.1
    | check check => cases check <;> simp [hdirective, Action.ofDirective] at heq
    | _ => simp [hdirective, Action.ofDirective] at heq
  · rw [hactions] at hmem ⊢
    obtain ⟨d, -, heq⟩ := List.mem_map.1 hmem
    cases hdirective : d.directive with
    | purge path' principal' =>
      rw [hdirective] at heq
      cases heq
      rw [Grant.mem_sortedOf, List.mem_filter, Expansion.mem_grants_iff]
    | check check => cases check <;> simp [hdirective, Action.ofDirective] at heq
    | _ => simp [hdirective, Action.ofDirective] at heq

/-! ## Settled actions -/

namespace Action

variable {s : State}

theorem settled_ensure {kind : PrincipalKind} {id : String} {path : Option String} :
    (ensure kind id path).verdict .empty s = some none ↔
      ∃ p, s.principals.get? id = some p ∧ p.kind = kind := by
  rw [verdict_ensure, Overlay.kind?_empty]
  cases s.principals.get? id with
  | none => simp
  | some p => by_cases h : p.kind = kind <;> simp [h]

theorem settled_addMember {group member : String} :
    (addMember group member).verdict .empty s = some none ↔ s.isMember group member = true := by
  rw [verdict_addMember]
  split
  · next h => exact iff_of_true rfl h
  · next h =>
    refine iff_of_false (fun heq => ?_) h
    split at heq <;> cases heq

theorem settled_setPermission {path : String} {entry : Permission} :
    (setPermission path entry).verdict .empty s = some none ↔
      ∃ n, s.nodes.get? path = some n ∧ n.acl.any (·.covers entry) = true := by
  rw [verdict_setPermission, Overlay.node?_empty]
  cases s.nodes.get? path with
  | none => simp
  | some n => simp

theorem settled_setProperty {path key value : String} :
    (setProperty path key value).verdict .empty s = some none ↔
      ∃ n, s.nodes.get? path = some n ∧ n.properties.get? key = some value := by
  rw [verdict_setProperty, Overlay.node?_empty]
  cases s.nodes.get? path with
  | none => simp
  | some n => by_cases h : n.properties.get? key = some value <;> simp [h]

theorem settled_checkPresent {id : String} {wanted : Option PrincipalKind} :
    (checkPresent id wanted).verdict .empty s = some none ↔
      ∃ p, s.principals.get? id = some p ∧ wanted.all (p.kind == ·) = true := by
  rw [verdict_checkPresent, Overlay.kind?_empty]
  cases s.principals.get? id with
  | none => simp
  | some p => by_cases h : wanted.all (p.kind == ·) = true <;> simp [h]

theorem settled_purge {path : String} {principal : Option String} {keep : List Grant} :
    (purge path principal keep).verdict .empty s = some none ↔
      ∀ p n held, s.nodes.get? p = some n → Path.within p path = true → held ∈ n.acl →
        principal.all (· == held.principal) = true →
        ∀ x ∈ held.privileges, Overlay.Keeps keep p held x := by
  have hnil : (purge path principal keep).verdict .empty s = some none ↔
      Overlay.empty.excess s path principal keep = [] := by
    rw [verdict_purge_empty]
    split <;> simp [*]
  rw [hnil, List.eq_nil_iff_forall_not_mem]
  constructor
  · intro h p n held hn hwithin hheld
    rw [← Overlay.excess?_eq_none_iff, Option.eq_none_iff_forall_not_mem]
    exact fun g hg => h g (mem_excess.2 ⟨p, n, held, hn, hwithin, hheld, hg⟩)
  · intro h g hg
    obtain ⟨p, n, held, hn, hwithin, hheld, hg⟩ := mem_excess.1 hg
    rw [Overlay.excess?_eq_none_iff.2 (h p n held hn hwithin hheld)] at hg
    cases hg

theorem settled_removeMember {group member : String} :
    (removeMember group member).verdict .empty s = some none ↔
      s.isMember group member = false := by
  rw [verdict_removeMember]
  cases s.isMember group member <;> simp

theorem settled_copy {source target : String} :
    (copy source target).verdict .empty s = some none ↔ s.hasNode target = true := by
  rw [verdict_copy, Overlay.isSome_node?_empty, Overlay.isSome_node?_empty]
  cases s.hasNode target <;> cases s.hasNode source <;> simp

theorem settled_delete {path : String} :
    (delete path).verdict .empty s = some none ↔ s.hasNode path = false := by
  rw [verdict_delete, Overlay.isSome_node?_empty]
  cases s.hasNode path <;> simp

/-- After what a purge finds is revoked, there is nothing left to revoke. -/
theorem settled_purge_revokeEach (path : String) (principal : Option String) (keep : List Grant) :
    (purge path principal keep).verdict .empty
      (s.revokeEach (Overlay.empty.excess s path principal keep)) = some none := by
  rw [settled_purge]
  intro p n' held hn' hwithin hheld hprincipal x hx
  obtain ⟨n, hn⟩ := State.hasNode_eq_true_iff.1
    ((State.hasNode_revokeEach _ p).symm.trans (State.hasNode_eq_true_iff.2 ⟨n', hn'⟩))
  obtain ⟨q, hq, htarget, hprivileges⟩ := State.mem_acl_revokeEach hn hn' hheld
  obtain ⟨hxq, hrevoked⟩ := hprivileges x hx
  have hqprincipal : principal.all (· == q.principal) = true := by
    rwa [(Permission.sameTarget_iff.1 htarget).1]
  -- otherwise the privilege is among those that the purge found, and was revoked
  by_contra hkept
  have hlost : x ∈ Overlay.lost keep p q := by
    refine Overlay.mem_lost.2 ⟨hxq, fun ⟨g, hg, hpath, hgtarget, hxg⟩ => hkept ?_⟩
    exact ⟨g, hg, hpath, Permission.sameTarget_trans hgtarget htarget, hxg⟩
  have hexcess : Overlay.excess? principal keep p q =
      some ⟨p, { q with privileges := Overlay.lost keep p q }⟩ := by
    rw [Overlay.excess?_eq, if_pos hqprincipal,
      if_neg (by simpa using NameSet.isEmpty_eq_false_iff.2 ⟨x, hlost⟩)]
  exact hrevoked _ (mem_excess.2 ⟨p, n, q, hn, hwithin, hq, hexcess⟩) rfl htarget hlost

/-- After a change that was due nothing is left to do, except that a subtree that was moved may have
brought something along to where it was. -/
theorem settled_of_due {a : Action} {s' : State} {c : Change}
    (hmove : ∀ source target, a ≠ .move source target)
    (hverdict : a.verdict .empty s = some (some c)) {x : c.call.Answer}
    (hanswer : s.answer c.call = .ok (x, s')) : a.verdict .empty s' = some none := by
  cases of_verdict_due hverdict with
  | create kind id path =>
    rcases State.ensurePrincipal_eq_ok (State.done_eq_ok hanswer) with ⟨rfl, hkind⟩ | ⟨-, rfl⟩
    · exact settled_ensure.2 hkind
    · exact settled_ensure.2 ⟨_, Table.get?_insert_self .., rfl⟩
  | addMember group member =>
    obtain ⟨p, hp, -, rfl⟩ :=
      State.changeMembers_eq_ok (State.addMember_eq_ok (State.done_eq_ok hanswer)).2
    rw [settled_addMember, State.isMember, Table.get?_insert_self, Option.any_some,
      NameSet.contains_iff]
    exact NameSet.mem_insert.2 (.inl rfl)
  | removeMember group member =>
    obtain ⟨p, hp, -, rfl⟩ := State.changeMembers_eq_ok (State.done_eq_ok hanswer)
    rw [settled_removeMember, State.isMember, Table.get?_insert_self, Option.any_some,
      Bool.eq_false_iff, ne_eq, NameSet.contains_iff, NameSet.mem_erase]
    exact fun h => h.2 rfl
  | grant path entry =>
    obtain ⟨hnode, rfl⟩ := State.changeNode_eq_ok (State.done_eq_ok hanswer)
    obtain ⟨n, hn⟩ := State.hasNode_eq_true_iff.1 hnode
    refine settled_setPermission.2 ⟨n.grant entry, ?_, Node.any_covers_grantIn_self⟩
    rw [State.get?_modifyNode, if_pos rfl, hn, Option.map_some]
  | setProperty path key value =>
    obtain ⟨hnode, rfl⟩ := State.changeNode_eq_ok (State.done_eq_ok hanswer)
    obtain ⟨n, hn⟩ := State.hasNode_eq_true_iff.1 hnode
    refine settled_setProperty.2 ⟨n.setProperty key value, ?_, ?_⟩
    · rw [State.get?_modifyNode, if_pos rfl, hn, Option.map_some]
    · rw [Node.get?_setProperty, if_pos rfl]
  | copy source target =>
    exact settled_copy.2 (State.hasNode_target (State.done_eq_ok hanswer))
  | move source target => exact absurd rfl (hmove source target)
  | delete path =>
    rw [settled_delete, State.hasNode_delete (State.done_eq_ok hanswer), Path.within_refl]
    rfl
  | revoke path principal keep batch =>
    cases due_purge hverdict
    obtain ⟨-, rfl⟩ := State.revokeAll_eq_ok (State.done_eq_ok hanswer)
    exact settled_purge_revokeEach path principal keep

end Action

/-! ## Advancing -/

/-- What a run of the actions does to the node at a path: declared properties that were set keep
their values, declared permissions that were covered stay covered, and every privilege was there or
is declared. -/
structure Node.Advances (actions : List Action) (path : String) (n n' : Node) : Prop where
  property : ∀ {key value}, .setProperty path key value ∈ actions →
    n.properties.get? key = some value → n'.properties.get? key = some value
  covered : ∀ {entry}, .setPermission path entry ∈ actions →
    n.acl.any (·.covers entry) = true → n'.acl.any (·.covers entry) = true
  bounded : ∀ {p x}, p ∈ n'.acl → x ∈ p.privileges →
    (∃ q ∈ n.acl, q.sameTarget p = true ∧ x ∈ q.privileges) ∨
      ∃ entry, .setPermission path entry ∈ actions ∧ entry.sameTarget p = true ∧
        x ∈ entry.privileges

/-- What a run of the actions does to a state: principals and members stay, the nodes are the same,
and each of them advances. -/
structure State.Advances (actions : List Action) (s s' : State) : Prop where
  principal : ∀ {id p}, s.principals.get? id = some p → ∃ p', s'.principals.get? id = some p' ∧
    p'.kind = p.kind ∧ ∀ m ∈ p.members, m ∈ p'.members
  hasNode : ∀ path, s'.hasNode path = s.hasNode path
  node : ∀ {path n n'}, s.nodes.get? path = some n → s'.nodes.get? path = some n' →
    n.Advances actions path n'

section

variable {actions : List Action} {path : String}

theorem Node.Advances.refl (n : Node) : n.Advances actions path n where
  property _ h := h
  covered _ h := h
  bounded {p _} hp hx := .inl ⟨p, hp, Permission.sameTarget_refl p, hx⟩

theorem Node.Advances.trans {n₁ n₂ n₃ : Node} (h : n₁.Advances actions path n₂)
    (h' : n₂.Advances actions path n₃) : n₁.Advances actions path n₃ where
  property hmem hget := h'.property hmem (h.property hmem hget)
  covered hmem hany := h'.covered hmem (h.covered hmem hany)
  bounded {p x} hp hx := by
    rcases h'.bounded hp hx with ⟨q, hq, hqp, hxq⟩ | hdeclared
    · rcases h.bounded hq hxq with ⟨r, hr, hrq, hxr⟩ | ⟨entry, hmem, hentry, hxentry⟩
      · exact .inl ⟨r, hr, Permission.sameTarget_trans hrq hqp, hxr⟩
      · exact .inr ⟨entry, hmem, Permission.sameTarget_trans hentry hqp, hxentry⟩
    · exact .inr hdeclared

namespace State.Advances

variable {s s' s'' : State}

/-- Every node is still there, and has advanced. -/
theorem exists_node (h : s.Advances actions s') {n : Node} (hn : s.nodes.get? path = some n) :
    ∃ n', s'.nodes.get? path = some n' ∧ n.Advances actions path n' := by
  obtain ⟨n', hn'⟩ := hasNode_eq_true_iff.1
    ((h.hasNode path).trans (hasNode_eq_true_iff.2 ⟨n, hn⟩))
  exact ⟨n', hn', h.node hn hn'⟩

theorem refl (s : State) : s.Advances actions s where
  principal {_ p} hp := ⟨p, hp, rfl, fun _ hm => hm⟩
  hasNode _ := rfl
  node {_ n n'} hn hn' := by
    cases hn.symm.trans hn'
    exact .refl n

theorem trans (h : s.Advances actions s') (h' : s'.Advances actions s'') :
    s.Advances actions s'' where
  principal hp := by
    obtain ⟨p', hp', hkind, hmembers⟩ := h.principal hp
    obtain ⟨p'', hp'', hkind', hmembers'⟩ := h'.principal hp'
    exact ⟨p'', hp'', hkind'.trans hkind, fun m hm => hmembers' m (hmembers m hm)⟩
  hasNode path := (h'.hasNode path).trans (h.hasNode path)
  node hn hn'' := by
    obtain ⟨n', hn', hadvances⟩ := h.exists_node hn
    exact hadvances.trans (h'.node hn' hn'')

/-- A change of the principals alone. -/
theorem of_insert {id : String} {p : Principal}
    (h : ∀ q, s.principals.get? id = some q → p.kind = q.kind ∧ ∀ m ∈ q.members, m ∈ p.members) :
    s.Advances actions { s with principals := s.principals.insert id p } where
  principal {id' q} hq := by
    show ∃ p', (s.principals.insert id p).get? id' = some p' ∧ _
    by_cases hid : id' = id
    · subst hid
      exact ⟨p, Table.get?_insert_self .., h q hq⟩
    · exact ⟨q, (Table.get?_insert_of_ne _ _ hid).trans hq, rfl, fun _ hm => hm⟩
  hasNode _ := rfl
  node {_ n n'} hn hn' := by
    cases hn.symm.trans hn'
    exact .refl n

/-- A change of one node. -/
theorem of_modifyNode {f : Node → Node}
    (h : ∀ n, s.nodes.get? path = some n → n.Advances actions path (f n)) :
    s.Advances actions (s.modifyNode path f) where
  principal {_ p} hp := ⟨p, hp, rfl, fun _ hm => hm⟩
  hasNode p := hasNode_modifyNode path p f
  node {p n n'} hn hn' := by
    rw [get?_modifyNode] at hn'
    split at hn'
    · next hp =>
      subst hp
      rw [hn, Option.map_some] at hn'
      cases hn'
      exact h n hn
    · cases hn.symm.trans hn'
      exact .refl n

end State.Advances

/-! ## Steps -/

namespace Coherent

variable {s s' : State}

/-- What is settled stays settled. -/
theorem settled_of_advances (hactions : Coherent actions) (h : s.Advances actions s') {a : Action}
    (ha : a ∈ actions) (hsettled : a.verdict .empty s = some none) :
    a.verdict .empty s' = some none := by
  have hdeclarative := hactions.declarative a ha
  cases a with
  | ensure kind id path =>
    obtain ⟨p, hp, hkind⟩ := Action.settled_ensure.1 hsettled
    obtain ⟨p', hp', hkind', -⟩ := h.principal hp
    exact Action.settled_ensure.2 ⟨p', hp', hkind'.trans hkind⟩
  | addMember group member =>
    rw [Action.settled_addMember, State.isMember, Option.any_eq_true] at *
    obtain ⟨p, hp, hmember⟩ := hsettled
    obtain ⟨p', hp', -, hmembers⟩ := h.principal hp
    exact ⟨p', hp', NameSet.contains_iff.2 (hmembers member (NameSet.contains_iff.1 hmember))⟩
  | setPermission path entry =>
    obtain ⟨n, hn, hcovered⟩ := Action.settled_setPermission.1 hsettled
    obtain ⟨n', hn', hadvances⟩ := h.exists_node hn
    exact Action.settled_setPermission.2 ⟨n', hn', hadvances.covered ha hcovered⟩
  | setProperty path key value =>
    obtain ⟨n, hn, hvalue⟩ := Action.settled_setProperty.1 hsettled
    obtain ⟨n', hn', hadvances⟩ := h.exists_node hn
    exact Action.settled_setProperty.2 ⟨n', hn', hadvances.property ha hvalue⟩
  | purge path principal keep =>
    rw [Action.settled_purge] at *
    intro p n' held hn' hwithin hheld hprincipal x hx
    obtain ⟨n, hn⟩ := State.hasNode_eq_true_iff.1
      ((h.hasNode p).symm.trans (State.hasNode_eq_true_iff.2 ⟨n', hn'⟩))
    rcases (h.node hn hn').bounded hheld hx with ⟨q, hq, htarget, hxq⟩ |
      ⟨entry, hdeclared, htarget, hxentry⟩
    · -- the privilege was there before, where the purge had nothing to revoke
      have hqprincipal := (Permission.sameTarget_iff.1 htarget).1
      obtain ⟨g, hg, hpath, hgtarget, hxg⟩ :=
        hsettled p n q hn hwithin hq (by rwa [hqprincipal]) x hxq
      exact ⟨g, hg, hpath, Permission.sameTarget_trans hgtarget htarget, hxg⟩
    · -- the privilege is declared, so the purge keeps it
      have heprincipal := (Permission.sameTarget_iff.1 htarget).1
      refine ⟨⟨p, entry⟩, (hactions.keep ha _).2 ⟨hdeclared, ?_⟩, rfl, htarget, hxentry⟩
      rw [Grant.concerns, Bool.and_eq_true]
      exact ⟨hwithin, by rwa [heprincipal]⟩
  | checkPresent id wanted =>
    obtain ⟨p, hp, hkind⟩ := Action.settled_checkPresent.1 hsettled
    obtain ⟨p', hp', hkind', -⟩ := h.principal hp
    exact Action.settled_checkPresent.2 ⟨p', hp', by rwa [hkind']⟩
  | removeMember | copy | move | delete | checkAbsent | checkPermission => cases hdeclarative

/-- A permission that is declared is granted. -/
theorem advances_grant {entry : Permission} (ha : .setPermission path entry ∈ actions) :
    s.Advances actions (s.modifyNode path (·.grant entry)) := by
  refine .of_modifyNode fun n _ => ⟨fun _ hvalue => hvalue, fun _ h => Node.any_covers_grantIn h,
    fun {p x} hp hx => ?_⟩
  rcases Node.mem_grantIn hp with rfl | hp | ⟨q, hq, htarget, rfl⟩
  · exact .inr ⟨p, ha, Permission.sameTarget_refl p, hx⟩
  · exact .inl ⟨p, hp, Permission.sameTarget_refl p, hx⟩
  · rcases NameSet.mem_union.1 hx with hx | hx
    · exact .inl ⟨q, hq, Permission.sameTarget_refl q, hx⟩
    · exact .inr ⟨entry, ha, Permission.sameTarget_symm htarget, hx⟩

/-- A property that is declared is set. -/
theorem advances_setProperty (hactions : Coherent actions) {key value : String}
    (ha : .setProperty path key value ∈ actions) :
    s.Advances actions (s.modifyNode path (·.setProperty key value)) := by
  refine .of_modifyNode fun n _ => ⟨fun {key' value'} hmem hvalue => ?_, fun _ h => h,
    fun {p x} hp hx => .inl ⟨p, hp, Permission.sameTarget_refl p, hx⟩⟩
  rw [Node.get?_setProperty]
  split
  · next hkey =>
    subst hkey
    have := hactions.consistent _ ha _ hmem
    simpa [Action.contradicts] using this
  · exact hvalue

/-- What a purge finds is revoked. -/
theorem advances_revoke (hactions : Coherent actions) {principal : Option String}
    {keep : List Grant} (ha : .purge path principal keep ∈ actions) :
    s.Advances actions (s.revokeEach (Overlay.empty.excess s path principal keep)) where
  principal {_ p} hp := ⟨p, by rwa [State.principals_revokeEach], rfl, fun _ hm => hm⟩
  hasNode p := State.hasNode_revokeEach _ p
  node {q n n'} hn hn' := by
    refine ⟨fun _ hvalue => ?_, fun {entry} hmem hcovered => ?_, fun {p x} hp hx => ?_⟩
    · rwa [State.properties_revokeEach hn hn']
    · -- nothing is revoked of a declared permission, because the purge keeps it
      refine State.any_covers_revokeEach_excess (hactions.nonempty hmem) ?_ hn hn' hcovered
      intro hwithin
      refine Overlay.excess?_eq_none_iff.2 fun hprincipal x hx => ?_
      refine ⟨⟨q, entry⟩, (hactions.keep ha _).2 ⟨hmem, ?_⟩, rfl,
        Permission.sameTarget_refl entry, hx⟩
      rw [Grant.concerns, Bool.and_eq_true]
      exact ⟨hwithin, hprincipal⟩
    · obtain ⟨r, hr, htarget, hprivileges⟩ := State.mem_acl_revokeEach hn hn' hp
      exact .inl ⟨r, hr, htarget, (hprivileges x hx).1⟩

/-- An action that goes through is settled, and the state has advanced. -/
theorem step (hactions : Coherent actions) {a : Action} (ha : a ∈ actions)
    (h : a.next? s = some s') : s.Advances actions s' ∧ a.verdict .empty s' = some none := by
  rcases Action.next?_eq_some h with ⟨hsettled, rfl⟩ | ⟨c, x, hverdict, hanswer⟩
  · exact ⟨.refl s', hsettled⟩
  have hdeclarative := hactions.declarative a ha
  refine ⟨?_, Action.settled_of_due ?notMove hverdict hanswer⟩
  case notMove =>
    rintro source target rfl
    cases hdeclarative
  cases Action.of_verdict_due hverdict with
  | create kind id path =>
    rcases State.ensurePrincipal_eq_ok (State.done_eq_ok hanswer) with ⟨rfl, -⟩ | ⟨hnone, rfl⟩
    · exact .refl s'
    · refine .of_insert fun q hq => ?_
      rw [hnone] at hq
      cases hq
  | addMember group member =>
    obtain ⟨p, hp, -, rfl⟩ :=
      State.changeMembers_eq_ok (State.addMember_eq_ok (State.done_eq_ok hanswer)).2
    refine .of_insert fun q hq => ?_
    rw [hp] at hq
    cases hq
    exact ⟨rfl, fun m hm => NameSet.mem_insert.2 (.inr hm)⟩
  | grant path entry =>
    obtain ⟨-, rfl⟩ := State.changeNode_eq_ok (State.done_eq_ok hanswer)
    exact advances_grant ha
  | setProperty path key value =>
    obtain ⟨-, rfl⟩ := State.changeNode_eq_ok (State.done_eq_ok hanswer)
    exact hactions.advances_setProperty ha
  | revoke path principal keep batch =>
    cases Action.due_purge hverdict
    obtain ⟨-, rfl⟩ := State.revokeAll_eq_ok (State.done_eq_ok hanswer)
    exact hactions.advances_revoke ha
  | removeMember | copy | move | delete => cases hdeclarative

/-- After actions that all go through, all of them are settled. -/
theorem settled_of_applyAll (hactions : Coherent actions) {before : List PlannedAction}
    (hbefore : ∀ a ∈ before, a.action ∈ actions)
    (h : PlannedAction.applyAll? s before = some s') :
    s.Advances actions s' ∧ ∀ a ∈ before, a.action.verdict .empty s' = some none := by
  induction before generalizing s with
  | nil =>
    cases h
    exact ⟨.refl _, fun a ha => by cases ha⟩
  | cons a rest ih =>
    rw [PlannedAction.applyAll?, List.foldlM_cons] at h
    obtain ⟨s₁, hnext, hrest⟩ := Option.bind_eq_some_iff.1 h
    have ha := hbefore a List.mem_cons_self
    obtain ⟨hadvances, hsettled⟩ := hactions.step ha hnext
    obtain ⟨hadvances', hsettled'⟩ := ih (fun b hb => hbefore b (List.mem_cons_of_mem _ hb)) hrest
    refine ⟨hadvances.trans hadvances', fun b hb => ?_⟩
    rcases List.mem_cons.1 hb with rfl | hb
    · exact hactions.settled_of_advances hadvances' ha hsettled
    · exact hsettled' b hb

end Coherent

end

/-! ## Runs -/

/-- The plan without the actions that come after the first `k`. -/
def Plan.take (k : Nat) (plan : Plan) : Plan :=
  { plan with actions := plan.actions.take k }

section

variable {α : Type} {xs ys : List α} {k n : Nat}

private theorem List.take_append_of_lengths (hx : xs.length = min k n) (hy : ys.length = n - k) :
    (xs ++ ys).take k = xs := by
  by_cases hk : k ≤ n
  · exact List.take_left' (by omega)
  · rw [List.eq_nil_of_length_eq_zero (l := ys) (by omega), List.append_nil]
    exact List.take_of_length_le (by omega)

private theorem List.drop_append_of_lengths (hx : xs.length = min k n) (hy : ys.length = n - k) :
    (xs ++ ys).drop k = ys := by
  have happend := List.take_append_drop k (xs ++ ys)
  rw [List.take_append_of_lengths hx hy] at happend
  exact List.append_cancel_left happend

end

/-- When actions that did not fail are run again on the state they left, nothing happens. -/
theorem Coherent.runAll_again {actions before : List PlannedAction}
    (hactions : Coherent (actions.map (·.action))) (hbefore : ∀ a ∈ before, a ∈ actions)
    (clock : String) (s : State)
    (h : ∀ e ∈ (Running.on clock (PlannedAction.runAll .apply .empty before) s).result.1,
      e.outcome.isFailed = false) :
    let interrupted := Running.on clock (PlannedAction.runAll .apply .empty before) s
    let again := Running.on clock (PlannedAction.runAll .apply .empty before) interrupted.state
    (∀ e ∈ again.result.1, e.outcome.isSkipped = true) ∧ again.state = interrupted.state ∧
      ∀ c ∈ again.calls, c.mutates = false := by
  intro interrupted again
  refine PlannedAction.runAll_apply_of_settled clock before interrupted.state ?_
  obtain ⟨-, hspec⟩ := PlannedAction.runAll_apply_spec clock before s
  cases hall : PlannedAction.applyAll? s before with
  | none =>
    rw [hall] at hspec
    obtain ⟨e, he, hfailed⟩ := hspec
    rw [h e he] at hfailed
    cases hfailed
  | some t =>
    rw [hall] at hspec
    have hstate : interrupted.state = t := hspec.2
    rw [hstate]
    exact (hactions.settled_of_applyAll
      (fun a ha => List.mem_map_of_mem (hbefore a ha)) hall).2

/-- A declarative plan that is started again from where it was interrupted skips what it had done,
without changing anything, and then goes on as if there had been no interruption. -/
theorem Plan.execute_resume {load : Loader} {limit : Nat} {identifier : String} {cache : Cache}
    {plan : Plan} (hplan : (compileScript load limit identifier cache).1 = .ok plan)
    (hdeclarative : plan.Declarative) (clock : String) (s : State) (k : Nat)
    (hbefore : ∀ outcome ∈ (Running.on clock ((plan.take k).execute .apply) s).result.outcomes,
      (outcome.isApplied || outcome.isSkipped) = true) :
    let interrupted := Running.on clock ((plan.take k).execute .apply) s
    let full := Running.on clock (plan.execute .apply) s
    let resumed := Running.on clock (plan.execute .apply) interrupted.state
    (∀ outcome ∈ resumed.result.outcomes.take k, outcome.isSkipped = true) ∧
      (∃ reads more, resumed.calls = reads ++ more ∧ (∀ c ∈ reads, c.mutates = false) ∧
        full.calls = interrupted.calls ++ more) ∧
      resumed.result.entries.drop k = full.result.entries.drop k ∧
      resumed.state = full.state ∧
      (plan.actions.length ≤ k →
        ∀ outcome ∈ resumed.result.outcomes, outcome.isSkipped = true) := by
  have hactions := hdeclarative.coherent hplan
  simp only [on_execute, Plan.take, Report.outcomes] at hbefore ⊢
  have hnofail : ∀ e ∈ (Running.on clock
      (PlannedAction.runAll .apply .empty (plan.actions.take k)) s).result.1,
      e.outcome.isFailed = false := by
    intro e he
    exact Outcome.isFailed_eq_false (hbefore _ (List.mem_map_of_mem he))
  obtain ⟨hskipped, hagain, hreads⟩ :=
    hactions.runAll_again (fun a ha => List.mem_of_mem_take ha) clock s hnofail
  have hfull := PlannedAction.on_runAll_append clock _ (plan.actions.drop k) s hnofail
  have hresumed := PlannedAction.on_runAll_append clock _ (plan.actions.drop k) _
    fun e he => Outcome.isFailed_eq_false (Bool.or_eq_true_iff.2 (.inr (hskipped e he)))
  simp only [List.take_append_drop] at hfull hresumed
  rw [hagain] at hresumed
  have hlength := PlannedAction.length_runAll_apply clock (plan.actions.take k) s
  rw [hfull, hresumed]
  generalize Running.on clock (PlannedAction.runAll .apply .empty (plan.actions.take k)) s =
    interrupted at *
  have hagainLength := PlannedAction.length_runAll_apply clock (plan.actions.take k)
    interrupted.state
  have hrestLength := PlannedAction.length_runAll_apply clock (plan.actions.drop k)
    interrupted.state
  rw [List.length_take] at hagainLength hlength
  rw [List.length_drop] at hrestLength
  refine ⟨?_, ⟨_, (Running.on clock (PlannedAction.runAll .apply .empty (plan.actions.drop k))
    interrupted.state).calls, ?_, hreads, ?_⟩, ?_, rfl, fun hk => ?_⟩
  · rw [← List.map_take, List.take_append_of_lengths hagainLength hrestLength]
    exact List.forall_mem_map.2 hskipped
  · rw [Transcript.calls_clocked, Answered.exchanges_append, List.map_append]
    rfl
  · rw [Transcript.calls_clocked, Transcript.calls_clocked, Answered.exchanges_append,
      List.map_append]
    rfl
  · rw [List.drop_append_of_lengths hagainLength hrestLength,
      List.drop_append_of_lengths hlength hrestLength]
  · rw [List.eq_nil_of_length_eq_zero (hrestLength.trans (by omega)), List.append_nil]
    exact List.forall_mem_map.2 hskipped

/-- A state in which a group and somebody else have privileges on a path. -/
def State.onboarding : State where
  principals := .ofList [("g", ⟨"g", .group, none, .empty⟩)]
  nodes := .ofList [("/", .empty),
    ("/a", ⟨.empty, [.ofLists "g" .allow ["jcr:all", "jcr:read"] [("rep:glob", "*")],
      .ofLists "h" .deny ["jcr:read"] []]⟩), ("/a/b", .empty)]

/-- A script that replaces what is granted on the path. -/
def onboardingText : String :=
  "create user \"u\"; purge \"/a\"; " ++
    "allow jcr:read, jcr:write on \"/a\" for \"g\" with rep:glob = \"*\"; " ++
    "set \"t\" = \"x\" on \"/a/b\";"

/-- The script is interrupted after the purge, before anything is granted. -/
theorem Plan.execute_resume_onboarding : ∃ plan, compileText onboardingText = .ok plan ∧
    plan.Declarative ∧
    let interrupted := Running.on "" ((plan.take 2).execute .apply) .onboarding
    let full := Running.on "" (plan.execute .apply) .onboarding
    let resumed := Running.on "" (plan.execute .apply) interrupted.state
    (∀ outcome ∈ interrupted.result.outcomes,
      (outcome.isApplied || outcome.isSkipped) = true) ∧
    resumed.result.outcomes.map (·.isSkipped) = [true, true, false, false] ∧
    resumed.state = full.state := by
  have hrun : ∃ plan, compileText onboardingText = .ok plan ∧ plan.Declarative ∧
      (∀ outcome ∈ (Running.on "" ((plan.take 2).execute .apply) .onboarding).result.outcomes,
        (outcome.isApplied || outcome.isSkipped) = true) ∧
      (Running.on "" (plan.execute .apply) (Running.on ""
        ((plan.take 2).execute .apply) .onboarding).state).result.outcomes.map (·.isSkipped) =
          [true, true, false, false] :=
    exists_of_compileText (by decide +kernel)
  obtain ⟨plan, hplan, hdeclarative, hbefore, hskipped⟩ := hrun
  obtain ⟨-, -, -, hstate, -⟩ := execute_resume hplan hdeclarative "" .onboarding 2 hbefore
  exact ⟨plan, hplan, hdeclarative, hbefore, hskipped, hstate⟩

end Entitle
