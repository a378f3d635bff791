import Entitle.Proofs.Stepwise
import Entitle.Proofs.Doubts

/-!
# What a forecast foresees

As long as nothing hangs on a doubt, a forecast and an application go through together or fail
together: what the forecast sees mirrors the state that the application has come to, and every
action that goes through keeps it so.

## Main definitions

* `Plan.foreseeable`: until one fails in a forecast, no action of the plan hangs on a doubt.
* `Action.Legal`: what the rules for directives say of an action.
* `Foretold`: a forecast and an application both fail, or mirror each other.

## Main statements

* `Mirrors.step`: an action fails both ways, or goes through and leaves a state that is mirrored.
* `Plan.status_dryRun_iff_apply`: a forecast of a foreseeable plan succeeds if the application does.
-/
namespace Entitle

/-! ## Foreseeable plans -/

/-- Until one of the actions fails in a forecast, nothing hangs on a doubt. -/
def PlannedAction.foreseeable (s : State) : Overlay → Doubts → List PlannedAction → Bool
  | _, _, [] => true
  | o, d, a :: rest =>
    d.spares s o a.action && match a.action.foresee? s o with
      | none => true
      | some o' => foreseeable s o' (d.after s o a.action) rest

/-- Until an action of the plan fails in a forecast, nothing hangs on a doubt. -/
def Plan.foreseeable (plan : Plan) (s : State) : Bool :=
  PlannedAction.foreseeable s .empty .none plan.actions

/-! ## Legal actions -/

/-- Paths are well-formed, a subtree is put outside of itself, the root is not deleted, and
permissions have privileges. -/
def Action.Legal : Action → Prop
  | setPermission path entry | checkPermission path entry =>
    Path.IsPath path ∧ entry.privileges.isEmpty = false
  | setProperty path _ _ => Path.IsPath path
  | copy source target | move source target =>
    Path.IsPath source ∧ Path.IsPath target ∧ ¬ Path.within target source = true
  | delete path => Path.IsPath path ∧ path ≠ "/"
  | _ => True

/-- The action of a directive without problems is legal. -/
theorem Action.legal_of_problems {grants : List Grant} {d : Directive} (h : d.problems = []) :
    (ofDirective grants d).Legal := by
  cases d with
  | create | addMember | removeMember | purge => trivial
  | permission effect ps path principal rs =>
    simp only [Directive.problems, List.append_eq_nil_iff] at h
    exact ⟨Rules.isPath_of_grant h.1, Permission.privileges_ofLists h.1⟩
  | setProperty path key value =>
    simp only [Directive.problems, List.append_eq_nil_iff] at h
    exact Rules.isPath_of_path h.1
  | copy source target | move source target => exact Rules.sound_of_transfer h
  | delete path =>
    simp only [Directive.problems, List.append_eq_nil_iff] at h
    refine ⟨Rules.isPath_of_path h.1, fun hroot => ?_⟩
    simp [hroot] at h
  | check check =>
    cases check with
    | present | absent => trivial
    | permission effect ps path principal =>
      exact ⟨Rules.isPath_of_grant h, Permission.privileges_ofLists h⟩

/-! ## Actions on mirrored states -/

/-- A group with a member is a group, and the member exists. -/
theorem State.MembersSound.kinds_of_isMember {s : State} (hs : s.MembersSound)
    {group member : String} (hmember : s.isMember group member = true) :
    (s.principals.get? group).map (·.kind) = some .group ∧
      s.principals.contains member = true := by
  obtain ⟨p, hp, hcontains⟩ := (Option.any_eq_true _ _).1 hmember
  have hmem := NameSet.contains_iff.1 hcontains
  refine ⟨?_, hs.member hp hmem⟩
  rw [hp, Option.map_some]
  cases hkind : p.kind with
  | group => rfl
  | user => exact absurd hmem (hs.user hp hkind member)

/-- A forecast and an application both fail, or both go through and mirror each other. -/
def Foretold (s₀ : State) (d : Doubts) : Option Overlay → Option State → Prop
  | some o, some s => Mirrors s₀ o d s
  | none, none => True
  | _, _ => False

namespace Mirrors

variable {s₀ s s' : State} {o o' : Overlay} {d d' : Doubts} {path : String}

/-! ### Principals -/

theorem foretold_ensure (h : Mirrors s₀ o d s) (kind : PrincipalKind) (id : String)
    (path : Option String) :
    Foretold s₀ d ((Action.ensure kind id path).foresee? s₀ o)
      ((Action.ensure kind id path).next? s) := by
  have hforecast := Action.verdict_ensure o s₀ kind id path
  have hfound := Action.verdict_ensure .empty s kind id path
  rw [Overlay.kind?_empty, ← h.kind id] at hfound
  cases hkind : o.kind? s₀ id with
  | some existing =>
    simp only [hkind] at hforecast hfound
    split at hforecast
    · next heq =>
      rw [if_pos heq] at hfound
      rw [Action.foresee?_of_settled hforecast, Action.next?_of_settled hfound]
      exact h
    · next heq =>
      rw [if_neg heq] at hfound
      rw [Action.foresee?_of_failed hforecast, Action.next?_of_failed hfound]
      trivial
  | none =>
    simp only [hkind] at hforecast hfound
    have hnone : s.principals.get? id = none := by
      rw [h.kind id] at hkind
      exact Option.map_eq_none_iff.1 hkind
    have hanswer : s.answer (.ensurePrincipal kind id path) = .ok ((),
        { s with principals := s.principals.insert id ⟨id, kind, path, .empty⟩ }) := by
      simp [State.answer, State.ensurePrincipal, hnone, State.done, Except.map]
    rw [Action.foresee?_of_due hforecast, Action.next?_of_due hfound hanswer]
    refine h.of_principals rfl rfl (h.members.answer hanswer) fun id' => ?_
    rw [Change.note, Overlay.kind?_addPrincipal hkind, Table.get?_insert, h.kind id']
    split <;> rfl

/-- A change of the members of a group keeps the state mirrored. -/
theorem of_changeMembers (h : Mirrors s₀ o d s) {group : String} {f : NameSet → NameSet}
    (hmembers : s'.MembersSound) (hs' : s.changeMembers group f = .ok s') :
    Mirrors s₀ o d s' := by
  obtain ⟨p, hp, -, rfl⟩ := State.changeMembers_eq_ok hs'
  refine h.of_principals rfl rfl hmembers fun id => ?_
  rw [h.kind id, Table.get?_insert]
  split
  · next hid =>
    rw [hid, hp]
    rfl
  · rfl

/-- The members of a group that is seen can be changed. -/
theorem changeMembers_eq_ok_of_kind (h : Mirrors s₀ o d s) {group : String}
    (hgroup : o.kind? s₀ group = some .group) (f : NameSet → NameSet) :
    ∃ s', s.changeMembers group f = .ok s' := by
  rw [h.kind group, Option.map_eq_some_iff] at hgroup
  obtain ⟨p, hp, hkind⟩ := hgroup
  exact State.exists_changeMembers hp hkind f

/-- If there is a member in a group, both are seen, and the group is one. -/
theorem kinds_of_isMember (h : Mirrors s₀ o d s) {group member : String}
    (hmember : s.isMember group member = true) :
    o.kind? s₀ group = some .group ∧ (o.kind? s₀ member).isSome = true := by
  obtain ⟨hgroup, hcontains⟩ := h.members.kinds_of_isMember hmember
  rw [h.kind, h.kind, Option.isSome_map]
  exact ⟨hgroup, hcontains⟩

theorem foretold_addMember (hs₀ : s₀.MembersSound) (h : Mirrors s₀ o d s)
    (group member : String) :
    Foretold s₀ d ((Action.addMember group member).foresee? s₀ o)
      ((Action.addMember group member).next? s) := by
  have hforecast := Action.verdict_addMember o s₀ group member
  have hfound := Action.verdict_addMember .empty s group member
  simp only [Overlay.kind?_empty, ← h.kind] at hfound
  have hbefore : s₀.isMember group member = true →
      o.kind? s₀ group = some .group ∧ (o.kind? s₀ member).isSome = true := by
    intro hmember
    obtain ⟨hgroup, hcontains⟩ := hs₀.kinds_of_isMember hmember
    obtain ⟨g, hg, hkind⟩ := Option.map_eq_some_iff.1 hgroup
    obtain ⟨m, hm⟩ := Option.isSome_iff_exists.1 hcontains
    rw [Overlay.kind?_of_get? hg, hkind, Overlay.kind?_of_get? hm]
    exact ⟨rfl, rfl⟩
  by_cases hkinds : o.kind? s₀ group = some .group ∧ (o.kind? s₀ member).isSome = true
  · have hforesee : (Action.addMember group member).foresee? s₀ o = some o := by
      rw [if_pos hkinds] at hforecast
      split at hforecast
      · exact Action.foresee?_of_settled hforecast
      · exact Action.foresee?_of_due hforecast
    rw [hforesee]
    rw [if_pos hkinds] at hfound
    split at hfound
    · rw [Action.next?_of_settled hfound]
      exact h
    · obtain ⟨s', hs'⟩ := h.changeMembers_eq_ok_of_kind hkinds.1 (·.insert member)
      have hcontains : s.principals.contains member = true := by
        have := hkinds.2
        rwa [h.kind, Option.isSome_map] at this
      have hanswer : s.answer (.addMember group member) = .ok ((), s') := by
        rw [State.answer, State.addMember, if_pos hcontains, hs']
        rfl
      rw [Action.next?_of_due hfound hanswer]
      exact h.of_changeMembers (h.members.answer hanswer) hs'
  · rw [if_neg hkinds, if_neg fun hmember => hkinds (hbefore hmember)] at hforecast
    rw [if_neg hkinds, if_neg fun hmember => hkinds (h.kinds_of_isMember hmember)] at hfound
    rw [Action.foresee?_of_failed hforecast, Action.next?_of_failed hfound]
    trivial

theorem foretold_removeMember (h : Mirrors s₀ o d s) (group member : String) :
    Foretold s₀ d ((Action.removeMember group member).foresee? s₀ o)
      ((Action.removeMember group member).next? s) := by
  have hforecast := Action.verdict_removeMember o s₀ group member
  have hfound := Action.verdict_removeMember .empty s group member
  have hforesee : (Action.removeMember group member).foresee? s₀ o = some o := by
    split at hforecast
    · exact Action.foresee?_of_due hforecast
    · exact Action.foresee?_of_settled hforecast
  rw [hforesee]
  split at hfound
  · next hmember =>
    obtain ⟨s', hs'⟩ :=
      h.changeMembers_eq_ok_of_kind (h.kinds_of_isMember hmember).1 (·.erase member)
    have hanswer : s.answer (.removeMember group member) = .ok ((), s') := by
      rw [State.answer, State.removeMember, hs']
      rfl
    rw [Action.next?_of_due hfound hanswer]
    exact h.of_changeMembers (h.members.answer hanswer) hs'
  · rw [Action.next?_of_settled hfound]
    exact h

/-! ### Checks -/

/-- A check that comes out the same both ways. -/
theorem foretold_of_check (h : Mirrors s₀ o d s) {a : Action} (ha : a.mutates = false)
    (heq : a.verdict o s₀ = a.verdict .empty s) : Foretold s₀ d (a.foresee? s₀ o) (a.next? s) := by
  cases hverdict : a.verdict o s₀ with
  | none =>
    rw [Action.foresee?_of_failed hverdict, Action.next?_of_failed (heq ▸ hverdict)]
    trivial
  | some due =>
    cases due with
    | none =>
      rw [Action.foresee?_of_settled hverdict, Action.next?_of_settled (heq ▸ hverdict)]
      exact h
    | some c =>
      rw [(Action.of_verdict_due hverdict).mutates] at ha
      cases ha

theorem foretold_checkPresent (h : Mirrors s₀ o d s) (id : String)
    (wanted : Option PrincipalKind) :
    Foretold s₀ d ((Action.checkPresent id wanted).foresee? s₀ o)
      ((Action.checkPresent id wanted).next? s) := by
  refine h.foretold_of_check rfl ?_
  rw [Action.verdict_checkPresent, Action.verdict_checkPresent, Overlay.kind?_empty, h.kind id]

theorem foretold_checkAbsent (h : Mirrors s₀ o d s) (id : String) :
    Foretold s₀ d ((Action.checkAbsent id).foresee? s₀ o) ((Action.checkAbsent id).next? s) := by
  refine h.foretold_of_check rfl ?_
  rw [Action.verdict_checkAbsent, Action.verdict_checkAbsent, Overlay.kind?_empty, h.kind id]

theorem foretold_checkPermission (h : Mirrors s₀ o d s) {path : String} {entry : Permission}
    (hpath : Path.IsPath path) (hentry : entry.privileges.isEmpty = false)
    (hspares : d.spares s₀ o (.checkPermission path entry) = true) :
    Foretold s₀ d ((Action.checkPermission path entry).foresee? s₀ o)
      ((Action.checkPermission path entry).next? s) := by
  simp only [Doubts.spares, Bool.and_eq_true, Bool.not_eq_true'] at hspares
  obtain ⟨hplace, hdoubt⟩ := hspares
  refine h.foretold_of_check rfl ?_
  rw [Action.verdict_checkPermission, Action.verdict_checkPermission]
  have hacl : (o.acl s₀ path).any (·.covers entry) =
      (Overlay.empty.acl s path).any (·.covers entry) := by
    rcases h.node_cases hpath hplace with ⟨hm, hn⟩ | ⟨m, n, hm, hn⟩
    · simp [Overlay.acl, hm, hn]
    · have hmirrors := h.node hpath hplace hm hn
      rw [hm, Option.all_some] at hdoubt
      rw [Overlay.acl_eq hm, Overlay.acl_eq ((Overlay.node?_empty path).trans hn)]
      by_cases hcovered : m.acl.any (·.covers entry) = true
      · rw [if_pos hcovered, Bool.not_eq_true'] at hdoubt
        rw [hcovered, hmirrors.kept hentry hdoubt hcovered]
      · rw [if_neg hcovered, Bool.not_eq_true', Bool.eq_false_iff] at hdoubt
        rw [Bool.eq_false_iff.2 hcovered, Bool.eq_false_iff.2 fun hfound =>
          hdoubt (hmirrors.mayCover hfound)]
  rw [hacl]

/-! ### Permissions and properties -/

/-- An action that asks for a node, and whose change is not noted: it fails both ways if there is no
node, and otherwise it only has to go through when it is applied. -/
theorem foretold_of_node (h : Mirrors s₀ o d s) {a : Action} {due : Node → Option Change}
    (hverdict : ∀ o s, a.verdict o s = (o.node? s path).map due) (hpath : Path.IsPath path)
    (hplace : d.places path = false)
    (hnote : ∀ c, Change.Of a c → c.destination? = none ∧ c.note o = o)
    (hnext : ∀ m n, o.node? s₀ path = some m → s.nodes.get? path = some n →
      a.verdict .empty s = some (due n) → ∃ s', a.next? s = some s' ∧ Mirrors s₀ o d' s') :
    Foretold s₀ d' (a.foresee? s₀ o) (a.next? s) := by
  have hforecast := hverdict o s₀
  have hfound := hverdict .empty s
  rw [Overlay.node?_empty] at hfound
  rcases h.node_cases hpath hplace with ⟨hm, hn⟩ | ⟨m, n, hm, hn⟩
  · rw [hm] at hforecast
    rw [hn] at hfound
    rw [Action.foresee?_of_failed hforecast, Action.next?_of_failed hfound]
    trivial
  · rw [hm, Option.map_some] at hforecast
    rw [hn, Option.map_some] at hfound
    obtain ⟨s', hs', hmirrors⟩ := hnext m n hm hn hfound
    rw [Action.foresee?_of_unnoted hforecast hnote, hs']
    exact hmirrors

theorem foretold_setPermission (h : Mirrors s₀ o d s) {path : String} {entry : Permission}
    (hpath : Path.IsPath path) (hentry : entry.privileges.isEmpty = false)
    (hplace : d.places path = false) :
    Foretold s₀ (d.after s₀ o (.setPermission path entry))
      ((Action.setPermission path entry).foresee? s₀ o)
      ((Action.setPermission path entry).next? s) := by
  refine h.foretold_of_node (fun o s => Action.verdict_setPermission o s path entry) hpath hplace
    (by rintro _ ⟨⟩; exact ⟨rfl, rfl⟩) fun m n hm hn hfound => ?_
  rw [Doubts.after, Overlay.acl_eq hm]
  by_cases hsettled : n.acl.any (·.covers entry) = true
  · rw [if_pos hsettled] at hfound
    refine ⟨s, Action.next?_of_settled hfound, ?_⟩
    split
    · exact h
    · -- the forecast has a doubt more, although nothing is granted
      refine h.of_nodes rfl (fun _ => rfl) rfl fun hn₁ hn₂ hmirrors => ?_
      cases hn₁.symm.trans hn₂
      refine hmirrors.grant_doubts fun hp => ?_
      cases (hp ▸ hn₁).symm.trans hn
      exact hsettled
  · rw [if_neg hsettled] at hfound
    have hunseen : ¬ (m.acl.any (·.covers entry) && !d.lost path entry) = true := by
      rw [Bool.and_eq_true, Bool.not_eq_true']
      exact fun hseen => hsettled ((h.node hpath hplace hm hn).kept hentry hseen.2 hseen.1)
    have hanswer : s.answer (.setPermission path entry) =
        .ok ((), s.modifyNode path (·.grant entry)) := by
      rw [State.answer, State.setPermission, State.changeNode,
        if_pos (State.hasNode_eq_true_iff.2 ⟨n, hn⟩)]
      rfl
    refine ⟨_, Action.next?_of_due hfound hanswer, ?_⟩
    rw [if_neg hunseen]
    refine h.of_nodes rfl (State.hasNode_modifyNode path · _) rfl ?_
    intro p _ n₁ _ hn₁ hn₂ hmirrors
    rw [State.get?_modifyNode] at hn₂
    by_cases hp : p = path
    · subst hp
      rw [if_pos rfl, hn₁, Option.map_some] at hn₂
      cases hn₂
      exact hmirrors.grant entry
    · rw [if_neg hp] at hn₂
      cases hn₁.symm.trans hn₂
      exact hmirrors.grant_doubts fun h => absurd h hp

theorem foretold_setProperty (h : Mirrors s₀ o d s) {path : String} (hpath : Path.IsPath path)
    (hplace : d.places path = false) (key value : String) :
    Foretold s₀ d ((Action.setProperty path key value).foresee? s₀ o)
      ((Action.setProperty path key value).next? s) := by
  refine h.foretold_of_node (fun o s => Action.verdict_setProperty o s path key value) hpath hplace
    (by rintro _ ⟨⟩; exact ⟨rfl, rfl⟩) fun m n hm hn hfound => ?_
  split at hfound
  · exact ⟨s, Action.next?_of_settled hfound, h⟩
  · have hanswer : s.answer (.setProperty path key value) =
        .ok ((), s.modifyNode path (·.setProperty key value)) := by
      rw [State.answer, State.setProperty, State.changeNode,
        if_pos (State.hasNode_eq_true_iff.2 ⟨n, hn⟩)]
      rfl
    refine ⟨_, Action.next?_of_due hfound hanswer, ?_⟩
    refine h.of_nodes rfl (State.hasNode_modifyNode path · _) rfl fun hn₁ hn₂ hmirrors => ?_
    rw [State.get?_modifyNode] at hn₂
    split at hn₂
    · next hp =>
      subst hp
      rw [hn₁, Option.map_some] at hn₂
      cases hn₂
      exact { hmirrors with }
    · cases hn₁.symm.trans hn₂
      exact hmirrors

theorem foretold_purge (h : Mirrors s₀ o d s) (path : String) (principal : Option String)
    (keep : List Grant) :
    Foretold s₀ (d.after s₀ o (.purge path principal keep))
      ((Action.purge path principal keep).foresee? s₀ o)
      ((Action.purge path principal keep).next? s) := by
  have hforesee : (Action.purge path principal keep).foresee? s₀ o = some o := by
    have hforecast : (Action.purge path principal keep).verdict o s₀ = _ :=
      Action.verdict_purge o s₀ fun p hp => Overlay.isSome_node?_of_mem_seen hp
    split at hforecast
    · exact Action.foresee?_of_settled hforecast
    · exact Action.foresee?_of_due hforecast
  rw [hforesee, Doubts.after]
  have hfound : (Action.purge path principal keep).verdict .empty s = _ :=
    Action.verdict_purge_empty path principal keep
  -- a purge that finds nothing revokes nothing
  have hnext : (Action.purge path principal keep).next? s =
      some (s.revokeEach (Overlay.empty.excess s path principal keep)) := by
    split at hfound
    · next hnothing =>
      rw [hnothing]
      exact Action.next?_of_settled hfound
    · have hanswer : s.answer (.revokePermissions
          (Overlay.empty.excess s path principal keep)) =
            .ok ((), s.revokeEach (Overlay.empty.excess s path principal keep)) := by
        rw [State.answer, State.revokeAll_excess]
        rfl
      exact Action.next?_of_due hfound hanswer
  rw [hnext]
  refine h.of_nodes (State.principals_revokeEach _) (State.hasNode_revokeEach _) rfl
    fun {p} _ n₁ n₂ hn₁ hn₂ hmirrors => hmirrors.purge ?_ ?_
  · refine fun hwanted hpurge => State.any_covers_revokeEach_excess hwanted (fun hwithin => ?_)
      hn₁ hn₂
    simpa [Permission.isPurged, hwithin] using hpurge
  · intro held wanted hheld htarget
    obtain ⟨before, hbefore, hbeforeTarget, hprivileges⟩ :=
      State.mem_acl_revokeEach_excess hn₁ hn₂ hheld
    refine ⟨before, hbefore, Permission.sameTarget_trans hbeforeTarget htarget, fun x hx => ?_⟩
    obtain ⟨hxBefore, hkeeps⟩ := hprivileges x hx
    exact ⟨hxBefore, Permission.isPurged_eq_false htarget hkeeps⟩

/-! ### Subtrees -/

theorem foretold_delete (h : Mirrors s₀ o d s) {path : String} (hpath : Path.IsPath path)
    (hroot : path ≠ "/") (hplace : d.places path = false) :
    Foretold s₀ (d.after s₀ o (.delete path)) ((Action.delete path).foresee? s₀ o)
      ((Action.delete path).next? s) := by
  have hforecast := Action.verdict_delete o s₀ path
  have hfound := Action.verdict_delete .empty s path
  rw [Overlay.node?_empty] at hfound
  rw [Doubts.after]
  rcases h.node_cases hpath hplace with ⟨hm, hn⟩ | ⟨m, n, hm, hn⟩
  · rw [hm] at hforecast
    rw [hn] at hfound
    rw [Action.foresee?_of_settled hforecast, Action.next?_of_settled hfound, hm]
    exact h
  · rw [hm] at hforecast
    rw [hn] at hfound
    obtain ⟨s', hs'⟩ := State.exists_delete (State.hasNode_eq_true_iff.2 ⟨n, hn⟩) hroot
    have hanswer : s.answer (.delete path) = .ok ((), s') := by
      rw [State.answer, hs']
      rfl
    rw [Action.foresee?_of_due hforecast, Action.next?_of_due hfound hanswer, hm]
    have hprincipals : s'.principals = s.principals := by
      rw [(State.delete_eq_ok hs').2]
    refine h.of_tree (h.tree.delete hpath hs') hprincipals
      (h.sound.plan hpath hroot fun real hreal => by cases hreal) rfl fun {p} hp hdoubt => ?_
    rw [Change.note, Overlay.node?_dropNode hp hpath, State.get?_delete hs']
    by_cases hwithin : Path.within p path = true
    · rw [if_pos hwithin, if_pos hwithin]
      exact .inl ⟨rfl, rfl⟩
    · rw [if_neg hwithin, if_neg hwithin]
      refine .inr ⟨p, hp, ?_, rfl, rfl, rfl, rfl⟩
      simpa [Doubts.drop, hwithin] using hdoubt

section

variable {source target : String} {keepSource : Bool}
  (hsource : Path.IsPath source) (htarget : Path.IsPath target)
  (houtside : ¬ Path.within target source = true)
include hsource htarget houtside

/-- After a transfer that is noted, a state is mirrored again. -/
theorem of_transfer (h : Mirrors s₀ o d s) (hs' : s.transfer source target keepSource = .ok s') :
    Mirrors s₀
      (if keepSource then o.putNode source target
        else (o.putNode source target).dropNode source)
      (if keepSource then d.put o source target else (d.put o source target).drop source) s' := by
  have hsourceRoot := State.source_ne_root htarget houtside
  have htargetRoot := h.tree.target_ne_root hs'
  obtain ⟨-, -, -, heq⟩ := State.transfer_eq_ok hs'
  have hput : (o.putNode source target).Sound :=
    h.sound.plan htarget htargetRoot fun real hreal =>
      (Overlay.isPath_of_backing h.sound hsource hreal).imp_right (· hsourceRoot)
  -- what is seen and what there is, before the source is dropped
  have hseen : ∀ {p}, Path.IsPath p → (d.put o source target).places p = false →
      ∃ q, Path.IsPath q ∧ d.places q = false ∧
        (o.putNode source target).node? s₀ p = o.node? s₀ q ∧
        (if Path.within p target then s.nodes.get? (Path.rebase p target source)
          else s.nodes.get? p) = s.nodes.get? q ∧
        (d.put o source target).lost p = d.lost q ∧
        (d.put o source target).granted p = d.granted q := by
    intro p hp hplace
    obtain ⟨hinside, helsewhere⟩ := Overlay.node?_putNode (s := s₀) h.sound hp hsource hsourceRoot
      htarget htargetRoot
    by_cases hwithin : Path.within p target = true
    · simp only [Doubts.put, if_pos hwithin, Bool.or_eq_false_iff] at hplace
      refine ⟨Path.rebase p target source, hp.rebase htarget hsource htargetRoot hwithin,
        hplace.1, hinside hwithin hplace.2, if_pos hwithin, ?_, ?_⟩
      · simp only [Doubts.put, if_pos hwithin]
      · simp only [Doubts.put, if_pos hwithin]
    · simp only [Doubts.put, if_neg hwithin] at hplace
      refine ⟨p, hp, hplace, helsewhere hwithin, if_neg hwithin, ?_, ?_⟩
      · simp only [Doubts.put, if_neg hwithin]
      · simp only [Doubts.put, if_neg hwithin]
  have htree := h.tree.transfer hsource hsourceRoot htarget houtside hs'
  have hnodes := fun p (hp : Path.IsPath p) =>
    State.get?_transfer h.tree hsource hsourceRoot htarget hs' hp
  have hprincipals : s'.principals = s.principals := by
    rw [heq]
  cases keepSource with
  | true =>
    refine h.of_tree htree hprincipals hput rfl fun {p} hp hplace => ?_
    rw [hnodes p hp]
    exact .inr (hseen hp hplace)
  | false =>
    refine h.of_tree htree hprincipals (hput.plan hsource hsourceRoot fun _ hreal => by cases hreal)
      rfl fun {p} hp hplace => ?_
    rw [hnodes p hp]
    simp only [Bool.false_eq_true, if_false, Overlay.node?_dropNode hp hsource]
    by_cases hpsource : Path.within p source = true
    · have hptarget : ¬ Path.within p target = true := by
        intro hptarget
        rw [h.tree.not_within_source hsource htarget houtside hs' hp hptarget] at hpsource
        cases hpsource
      rw [if_pos hpsource, if_neg hptarget, if_pos (by simp [hpsource])]
      exact .inl ⟨rfl, rfl⟩
    · have hput : (d.put o source target).places p = false := by
        simpa [Doubts.drop, hpsource] using hplace
      have hkept : (!false && Path.within p source) = false := by
        simp [hpsource]
      simp only [if_neg hpsource, hkept, Bool.false_eq_true, if_false]
      exact .inr (hseen hp hput)

omit hsource houtside in
/-- The parent of a target is missing both ways, or neither way. -/
theorem transfer_cases (h : Mirrors s₀ o d s) (hnode : s.hasNode source = true)
    (hfree : s.hasNode target = false)
    (hparent : (Path.parent? target).all (!d.places ·) = true) :
    (∃ up, Path.parent? target = some up ∧ o.node? s₀ up = none ∧
      s.transfer source target keepSource = .error (.notFound up)) ∨
    ((∀ up, Path.parent? target = some up → (o.node? s₀ up).isSome = true) ∧
      ∃ s', s.transfer source target keepSource = .ok s') := by
  cases hup : Path.parent? target with
  | none =>
    refine .inr ⟨fun up h => ?_, State.exists_transfer hnode hfree fun up h => ?_⟩
    · cases h
    · rw [hup] at h
      cases h
  | some up =>
    have hplace : d.places up = false := by
      rw [hup] at hparent
      simpa using hparent
    rcases h.node_cases (htarget.parent hup) hplace with ⟨hm, hn⟩ | ⟨m, n, hm, hn⟩
    · refine .inl ⟨up, rfl, hm, State.transfer_eq_error hnode hfree hup ?_⟩
      rw [State.hasNode, Table.contains, hn, Option.isSome_none]
    · refine .inr ⟨?_, State.exists_transfer hnode hfree ?_⟩
      · intro up' hup'
        cases hup'
        rw [hm, Option.isSome_some]
      · intro up' hup'
        rw [hup] at hup'
        cases hup'
        exact State.hasNode_eq_true_iff.2 ⟨n, hn⟩

/-- A transfer that is due both ways is refused both ways, or goes through both ways. -/
theorem foretold_transfer (keepSource : Bool) (h : Mirrors s₀ o d s) {a : Action} {c : Change}
    (hforecast : a.verdict o s₀ = some (some c)) (hfound : a.verdict .empty s = some (some c))
    (hdestination : c.destination? = some target)
    (hnote : c.note o = if keepSource then o.putNode source target
      else (o.putNode source target).dropNode source)
    (hrefused : ∀ e, s.transfer source target keepSource = .error e → s.answer c.call = .error e)
    (hanswer : ∀ s', s.transfer source target keepSource = .ok s' →
      ∃ x, s.answer c.call = .ok (x, s'))
    (hnode : s.hasNode source = true) (hfree : s.hasNode target = false)
    (hparent : (Path.parent? target).all (!d.places ·) = true) :
    Foretold s₀ (if keepSource then d.put o source target else (d.put o source target).drop source)
      (a.foresee? s₀ o) (a.next? s) := by
  rcases h.transfer_cases htarget hnode hfree hparent with
    ⟨up, hup, hnone, herror⟩ | ⟨hseen, s', hs'⟩
  · rw [Action.foresee?_of_missing_parent hforecast hdestination hup hnone,
      Action.next?_of_refused hfound (hrefused _ herror)]
    trivial
  · obtain ⟨x, hx⟩ := hanswer s' hs'
    rw [Action.foresee?_of_parent hforecast hdestination hseen, Action.next?_of_due hfound hx,
      hnote]
    exact h.of_transfer hsource htarget houtside hs'

variable (hsourcePlace : d.places source = false) (htargetPlace : d.places target = false)
  (hparentPlace : (Path.parent? target).all (!d.places ·) = true)
include hsourcePlace htargetPlace hparentPlace

theorem foretold_copy (h : Mirrors s₀ o d s) :
    Foretold s₀ (d.after s₀ o (.copy source target)) ((Action.copy source target).foresee? s₀ o)
      ((Action.copy source target).next? s) := by
  have hforecast := Action.verdict_copy o s₀ source target
  have hfound := Action.verdict_copy .empty s source target
  have hsources := h.hasNode hsource hsourcePlace
  have htargets := h.hasNode htarget htargetPlace
  simp only [Overlay.isSome_node?_empty, ← hsources, ← htargets] at hfound
  rw [Doubts.after]
  by_cases hatTarget : (o.node? s₀ target).isSome = true
  · rw [if_pos hatTarget] at hforecast hfound ⊢
    rw [Action.foresee?_of_settled hforecast, Action.next?_of_settled hfound]
    exact h
  rw [if_neg hatTarget] at hforecast hfound ⊢
  by_cases hatSource : (o.node? s₀ source).isSome = true
  · rw [if_pos hatSource] at hforecast hfound
    exact h.foretold_transfer hsource htarget houtside true hforecast hfound rfl rfl
      (fun _ herror => congrArg State.done herror)
      (fun _ hs' => ⟨(), congrArg State.done hs'⟩) (hsources.symm.trans hatSource)
      (htargets.symm.trans (Bool.eq_false_iff.2 hatTarget)) hparentPlace
  · rw [if_neg hatSource] at hforecast hfound
    rw [Action.foresee?_of_failed hforecast, Action.next?_of_failed hfound]
    trivial

theorem foretold_move (h : Mirrors s₀ o d s) :
    Foretold s₀ (d.after s₀ o (.move source target)) ((Action.move source target).foresee? s₀ o)
      ((Action.move source target).next? s) := by
  have hforecast := Action.verdict_move o s₀ source target
  have hfound := Action.verdict_move .empty s source target
  have hsources := h.hasNode hsource hsourcePlace
  have htargets := h.hasNode htarget htargetPlace
  simp only [Overlay.isSome_node?_empty, ← hsources, ← htargets] at hfound
  rw [Doubts.after]
  cases hatSource : (o.node? s₀ source).isSome <;> cases hatTarget : (o.node? s₀ target).isSome <;>
    simp only [hatSource, hatTarget] at hforecast hfound
  · rw [Action.foresee?_of_failed hforecast, Action.next?_of_failed hfound]
    trivial
  · rw [Action.foresee?_of_settled hforecast, Action.next?_of_settled hfound, if_pos rfl]
    exact h
  · exact h.foretold_transfer hsource htarget houtside false hforecast hfound rfl rfl
      (fun _ herror => congrArg State.done herror)
      (fun _ hs' => ⟨(), congrArg State.done hs'⟩) (hsources.symm.trans hatSource)
      (htargets.symm.trans hatTarget) hparentPlace
  · rw [Action.foresee?_of_failed hforecast, Action.next?_of_failed hfound]
    trivial

end

/-! ### All actions -/

/-- A legal action that depends on no doubt fails both ways, or goes through both ways. -/
theorem step (hs₀ : s₀.MembersSound) (h : Mirrors s₀ o d s) {a : Action} (ha : a.Legal)
    (hspares : d.spares s₀ o a = true) :
    Foretold s₀ (d.after s₀ o a) (a.foresee? s₀ o) (a.next? s) := by
  cases a with
  | ensure kind id path => exact h.foretold_ensure kind id path
  | addMember group member => exact h.foretold_addMember hs₀ group member
  | removeMember group member => exact h.foretold_removeMember group member
  | setPermission path entry =>
    exact h.foretold_setPermission ha.1 ha.2 (by simpa [Doubts.spares] using hspares)
  | setProperty path key value =>
    exact h.foretold_setProperty ha (by simpa [Doubts.spares] using hspares) key value
  | copy source target =>
    simp only [Doubts.spares, Bool.and_eq_true, Bool.not_eq_true'] at hspares
    exact h.foretold_copy ha.1 ha.2.1 ha.2.2 hspares.1.1 hspares.1.2 hspares.2
  | move source target =>
    simp only [Doubts.spares, Bool.and_eq_true, Bool.not_eq_true'] at hspares
    exact h.foretold_move ha.1 ha.2.1 ha.2.2 hspares.1.1 hspares.1.2 hspares.2
  | delete path => exact h.foretold_delete ha.1 ha.2 (by simpa [Doubts.spares] using hspares)
  | purge path principal keep => exact h.foretold_purge path principal keep
  | checkPresent id wanted => exact h.foretold_checkPresent id wanted
  | checkAbsent id => exact h.foretold_checkAbsent id
  | checkPermission path entry => exact h.foretold_checkPermission ha.1 ha.2 hspares

/-- Legal actions that depend on no doubt, until one fails in a forecast, go through one after the
other both ways or neither way. -/
theorem run (hs₀ : s₀.MembersSound) (h : Mirrors s₀ o d s) {actions : List PlannedAction}
    (hlegal : ∀ a ∈ actions, a.action.Legal)
    (hforeseeable : PlannedAction.foreseeable s₀ o d actions = true) :
    (PlannedAction.foreseeAll? s₀ o actions).isSome =
      (PlannedAction.applyAll? s actions).isSome := by
  induction actions generalizing o d s with
  | nil => rfl
  | cons a rest ih =>
    rw [PlannedAction.foreseeable, Bool.and_eq_true] at hforeseeable
    obtain ⟨hspares, hrest⟩ := hforeseeable
    have hstep := h.step hs₀ (hlegal a List.mem_cons_self) hspares
    rw [PlannedAction.foreseeAll?, List.foldlM_cons, PlannedAction.applyAll?, List.foldlM_cons]
    cases hforesee : a.action.foresee? s₀ o with
    | none =>
      cases hnext : a.action.next? s with
      | none => rfl
      | some s' =>
        rw [hforesee, hnext] at hstep
        exact hstep.elim
    | some o' =>
      rw [hforesee] at hrest
      cases hnext : a.action.next? s with
      | none =>
        rw [hforesee, hnext] at hstep
        exact hstep.elim
      | some s' =>
        rw [hforesee, hnext] at hstep
        exact ih hstep (fun b hb => hlegal b (List.mem_cons_of_mem _ hb)) hrest

end Mirrors

/-! ## Plans -/

/-- If no action of a compiled plan depends on a doubt until one fails in a forecast, then the
forecast succeeds if and only if the application does. -/
theorem Plan.status_dryRun_iff_apply {load : Loader} {limit : Nat} {identifier : String}
    {cache : Cache} {plan : Plan}
    (hplan : (compileScript load limit identifier cache).1 = .ok plan) {s : State}
    (htree : s.Tree) (hmembers : s.MembersSound) (hforeseeable : plan.foreseeable s = true)
    (clock : String) :
    (Running.on clock (plan.execute .dryRun) s).result.status = .success ↔
      (Running.on clock (plan.execute .apply) s).result.status = .success := by
  obtain ⟨script, root, c', e, -, -, he, rfl⟩ := compileScript_eq_ok hplan
  have hsound := Expansion.sound_of_ofChecked he
  have hlegal : ∀ a ∈ (Plan.ofExpansion e).actions, a.action.Legal := by
    intro a ha
    obtain ⟨d, hd, rfl⟩ := List.mem_map.1 ha
    exact Action.legal_of_problems (hsound d hd)
  rw [status_dryRun_iff, status_apply_iff,
    (Mirrors.start htree hmembers).run hmembers hlegal hforeseeable]

/-- A state in which a group has a privilege on a path. -/
def State.sharing : State where
  principals := .ofList [("g", ⟨"g", .group, none, .empty⟩)]
  nodes := .ofList [("/", .empty), ("/a", ⟨.empty, [.ofLists "g" .allow ["jcr:read"] []]⟩)]

/-- A script that checks in a copy what is purged at its source. -/
def sharingText : String :=
  "copy \"/a\" to \"/c\"; purge \"/a\"; check allow jcr:read on \"/c\" for \"g\";"

theorem Plan.status_dryRun_iff_apply_sharing : ∃ plan, compileText sharingText = .ok plan ∧
    State.sharing.Tree ∧ State.sharing.MembersSound ∧ plan.foreseeable .sharing = true ∧
    (Running.on "" (plan.execute .dryRun) .sharing).result.status = .success ∧
    (Running.on "" (plan.execute .apply) .sharing).result.status = .success := by
  have hrun : ∃ plan, compileText sharingText = .ok plan ∧ plan.foreseeable .sharing = true ∧
      (Running.on "" (plan.execute .dryRun) .sharing).result.status = .success :=
    exists_of_compileText (by decide +kernel)
  obtain ⟨plan, hplan, hforeseeable, hdryRun⟩ := hrun
  have htree : State.sharing.Tree := by decide +kernel
  have hmembers : State.sharing.MembersSound := by decide +kernel
  have hstatus := status_dryRun_iff_apply hplan htree hmembers hforeseeable ""
  exact ⟨plan, hplan, htree, hmembers, hforeseeable, hdryRun, hstatus.1 hdryRun⟩

/-- A tree with a user that has a member and a group with a member that does not exist. -/
def State.loose : State where
  principals := .ofList [("g", ⟨"g", .group, none, .ofList ["m"]⟩),
    ("u", ⟨"u", .user, none, .ofList ["m"]⟩)]
  nodes := .ofList [("/", .empty)]

/-- Without one of the conditions a forecast can fail although the application succeeds, or the
other way around. -/
theorem Plan.status_dryRun_ne_apply :
    -- what is granted is not seen by a check
    (State.initial.WellFormed ∧ ∃ plan,
      compileText ("allow jcr:read on \"/\" for \"g\"; " ++
        "check allow jcr:read on \"/\" for \"g\";") = .ok plan ∧
      (Running.on "" (plan.execute .dryRun) .initial).result.status = .partialFailure ∧
      (Running.on "" (plan.execute .apply) .initial).result.status = .success) ∧
    -- what is revoked is seen by a check
    (State.sharing.WellFormed ∧ ∃ plan,
      compileText "purge \"/a\"; check allow jcr:read on \"/a\" for \"g\";" = .ok plan ∧
      (Running.on "" (plan.execute .dryRun) .sharing).result.status = .success ∧
      (Running.on "" (plan.execute .apply) .sharing).result.status = .partialFailure) ∧
    -- what is gone is seen in a copy
    (State.sample.WellFormed ∧ ∃ plan,
      compileText ("delete \"/a/b\"; copy \"/a\" to \"/c\"; " ++
        "set \"t\" = \"x\" on \"/c/b\";") = .ok plan ∧
      (Running.on "" (plan.execute .dryRun) .sample).result.status = .success ∧
      (Running.on "" (plan.execute .apply) .sample).result.status = .partialFailure) ∧
    -- a user cannot lose members, and a member that does not exist cannot come back
    (State.loose.Tree ∧
      (∃ plan, compileText "remove \"m\" from \"u\";" = .ok plan ∧
        (Running.on "" (plan.execute .dryRun) .loose).result.status = .success ∧
        (Running.on "" (plan.execute .apply) .loose).result.status = .failed) ∧
      (∃ plan, compileText "remove \"m\" from \"g\"; add \"m\" to \"g\";" = .ok plan ∧
        (Running.on "" (plan.execute .dryRun) .loose).result.status = .success ∧
        (Running.on "" (plan.execute .apply) .loose).result.status = .partialFailure)) := by
  refine ⟨⟨?_, ?granted⟩, ⟨?_, ?revoked⟩, ⟨?_, ?copied⟩, ⟨?_, ?user, ?missing⟩⟩
  case granted | revoked | copied | user | missing =>
    exact exists_of_compileText (by decide +kernel)
  all_goals decide +kernel

end Entitle
