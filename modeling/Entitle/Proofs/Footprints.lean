import Entitle.Proofs.Stepwise
import Entitle.Proofs.Permissions

/-!
# Footprints of actions

What an action finds, and what it changes, is confined to what it names: the subtrees at its paths
and the principals whose existence or members it is about. Besides, a copy or a move looks whether
there is a node above its target. Two states that are the same there make no difference to the
action, and everywhere else it leaves a state as it is.

## Main definitions

* `Action.subtrees`, `Action.ids`: the paths and the principals of an action.
* `Action.Covers`, `Action.Sees`: the places that an action may change, and those it depends on.
* `State.SameOn`: two states are the same at some places and for some principals.
* `Action.step`: the outcome of an action that is applied, and the state after it.

## Main statements

* `Action.frame_step`: outside of what it names an action changes nothing.
* `Action.sameOn_step`: the outcome of an action, and what it makes of what it names, depend on what
  it sees.
-/
namespace Entitle

/-! ## What an action names -/

namespace Action

/-- The paths of the subtrees that an action is about. -/
def subtrees : Action → List String
  | setPermission path _ | setProperty path _ _ | delete path | purge path _ _
  | checkPermission path _ => [path]
  | copy source target | move source target => [source, target]
  | ensure .. | addMember .. | removeMember .. | checkPresent .. | checkAbsent .. => []

/-- The principals whose existence or members an action is about. -/
def ids : Action → List String
  | ensure _ id _ | checkPresent id _ | checkAbsent id => [id]
  | addMember group member | removeMember group member => [group, member]
  | setPermission .. | setProperty .. | copy .. | move .. | delete .. | purge ..
  | checkPermission .. => []

/-- The path is in one of the subtrees. -/
def Covers (a : Action) (p : String) : Prop :=
  ∃ r ∈ a.subtrees, Path.within p r = true

/-- The path is in one of the subtrees, or right above one. -/
def Sees (a : Action) (p : String) : Prop :=
  a.Covers p ∨ ∃ r ∈ a.subtrees, Path.parent? r = some p

/-- The paths of the action are well-formed, and its changes keep what a repository promises. -/
structure Proper (a : Action) : Prop where
  isPath : ∀ {r}, r ∈ a.subtrees → Path.IsPath r
  sound : ∀ {c}, Change.Of a c → c.call.Sound

/-- The action of a directive without problems is proper. -/
theorem proper_of_problems {d : Directive} (h : d.problems = []) (grants : List Grant) :
    (ofDirective grants d).Proper := by
  refine ⟨fun {r} hr => ?_, sound_of_problems h⟩
  cases d with
  | create | addMember | removeMember => simp [ofDirective, subtrees] at hr
  | permission effect ps path principal rs =>
    simp only [Directive.problems, List.append_eq_nil_iff] at h
    exact List.mem_singleton.1 hr ▸ Rules.isPath_of_grant h.1
  | setProperty path key value | delete path | purge path principal =>
    simp only [Directive.problems, List.append_eq_nil_iff] at h
    exact List.mem_singleton.1 hr ▸ Rules.isPath_of_path h.1
  | copy source target | move source target =>
    obtain ⟨hsource, htarget, -⟩ := Rules.sound_of_transfer h
    rcases List.mem_pair.1 hr with rfl | rfl
    · exact hsource
    · exact htarget
  | check check =>
    cases check with
    | present | absent => simp [ofDirective, subtrees] at hr
    | permission effect ps path principal =>
      exact List.mem_singleton.1 hr ▸ Rules.isPath_of_grant h

end Action

/-! ## States that are the same in part -/

/-- The states have the same nodes at the places, and the same principals with the ids. -/
structure State.SameOn (places ids : String → Prop) (s t : State) : Prop where
  node : ∀ {p}, Path.IsPath p → places p → s.nodes.get? p = t.nodes.get? p
  principal : ∀ {id}, ids id → s.principals.get? id = t.principals.get? id

/-- In a tree there is nothing under a text that is no path. -/
theorem State.Tree.get?_of_not_isPath {s : State} (hs : s.Tree) {p : String}
    (hp : ¬ Path.IsPath p) : s.nodes.get? p = none := by
  rw [← Option.not_isSome_iff_eq_none]
  exact fun hnode => hp (hs.isPath hnode)

/-- The paths of a subtree are the keys of the nodes in it. -/
theorem State.keys_filterKeys (s : State) (root : String) :
    (s.nodes.filterKeys (Path.within · root)).keys = s.subtree root := by
  simp [Table.keys, Table.filterKeys, State.subtree, List.filter_map, Function.comp_def]

namespace State.SameOn

variable {places places' ids ids' : String → Prop} {s t u : State}

theorem refl (s : State) : SameOn places ids s s := ⟨fun _ _ => rfl, fun _ => rfl⟩

theorem symm (h : SameOn places ids s t) : SameOn places ids t s :=
  ⟨fun hp hplace => (h.node hp hplace).symm, fun hid => (h.principal hid).symm⟩

theorem trans (h : SameOn places ids s t) (h' : SameOn places ids t u) : SameOn places ids s u :=
  ⟨fun hp hplace => (h.node hp hplace).trans (h'.node hp hplace),
    fun hid => (h.principal hid).trans (h'.principal hid)⟩

theorem mono (h : SameOn places ids s t) (hplaces : ∀ p, Path.IsPath p → places' p → places p)
    (hids : ∀ id, ids' id → ids id) : SameOn places' ids' s t :=
  ⟨fun hp hplace => h.node hp (hplaces _ hp hplace), fun hid => h.principal (hids _ hid)⟩

theorem hasNode (h : SameOn places ids s t) {p : String} (hp : Path.IsPath p) (hplace : places p) :
    s.hasNode p = t.hasNode p := by
  rw [State.hasNode, State.hasNode, Table.contains, Table.contains, h.node hp hplace]

/-- Trees that are the same within a path list the same subtree there. -/
theorem subtree_eq (h : SameOn places ids s t) (hs : s.Tree) (ht : t.Tree) {root : String}
    (hplaces : ∀ p, Path.within p root = true → places p) : s.subtree root = t.subtree root := by
  have htables : s.nodes.filterKeys (Path.within · root) =
      t.nodes.filterKeys (Path.within · root) := by
    refine Table.ext_get? fun p => ?_
    rw [Table.get?_filterKeys, Table.get?_filterKeys]
    split
    · next hwithin =>
      by_cases hp : Path.IsPath p
      · exact h.node hp (hplaces p hwithin)
      · rw [hs.get?_of_not_isPath hp, ht.get?_of_not_isPath hp]
    · rfl
  rw [← keys_filterKeys, ← keys_filterKeys, htables]

/-- Trees that are the same everywhere are the same. -/
theorem eq (h : SameOn (fun _ => True) (fun _ => True) s t) (hs : s.Tree) (ht : t.Tree) :
    s = t := by
  obtain ⟨principals, nodes⟩ := s
  obtain ⟨principals', nodes'⟩ := t
  congr
  · exact Table.ext_get? fun id => h.principal trivial
  · refine Table.ext_get? fun p => ?_
    by_cases hp : Path.IsPath p
    · exact h.node hp trivial
    · exact (hs.get?_of_not_isPath hp).trans (ht.get?_of_not_isPath hp).symm

end State.SameOn

/-! ## Looking -/

section

variable {s t : State}

theorem Attempt.look_bind_congr {α β : Type} {x : Attempt α} {f : α → Attempt β}
    (hx : x.look s = x.look t) (hf : ∀ a, (f a).look s = (f a).look t) :
    Attempt.look (x >>= f) s = Attempt.look (x >>= f) t := by
  rw [look_bind, look_bind, hx]
  cases x.look t with
  | error e => rfl
  | ok a => exact hf a

namespace State.SameOn

variable {places ids : String → Prop} {p : String}

theorem look_principal (h : SameOn places ids s t) {id : String} (hid : ids id) :
    (call (.principal id)).look s = (call (.principal id)).look t := by
  rw [Overlay.look_principal, Overlay.look_principal, h.principal hid]

theorem look_kindOf (h : SameOn places ids s t) {id : String} (hid : ids id) :
    (Overlay.empty.kindOf id).look s = (Overlay.empty.kindOf id).look t := by
  rw [Overlay.look_kindOf, Overlay.look_kindOf, Overlay.kind?_empty, Overlay.kind?_empty,
    h.principal hid]

theorem look_hasNode (h : SameOn places ids s t) (hp : Path.IsPath p) (hplace : places p) :
    (Overlay.empty.hasNode p).look s = (Overlay.empty.hasNode p).look t := by
  rw [Overlay.look_hasNode, Overlay.look_hasNode, Overlay.node?_empty, Overlay.node?_empty,
    h.node hp hplace]

theorem look_property (h : SameOn places ids s t) (hp : Path.IsPath p) (hplace : places p)
    (key : String) :
    (Overlay.empty.property p key).look s = (Overlay.empty.property p key).look t := by
  rw [Overlay.look_property, Overlay.look_property, Overlay.node?_empty, Overlay.node?_empty,
    h.node hp hplace]

theorem look_permissions (h : SameOn places ids s t) (hp : Path.IsPath p) (hplace : places p) :
    (Overlay.empty.permissions p).look s = (Overlay.empty.permissions p).look t := by
  rw [Overlay.look_permissions, Overlay.look_permissions, Overlay.node?_empty,
    Overlay.node?_empty, h.node hp hplace]

/-- A purge finds the same. -/
theorem excess_eq (h : SameOn places ids s t) (hs : s.Tree) (ht : t.Tree) (path : String)
    (hplaces : ∀ p, Path.within p path = true → places p) (principal : Option String)
    (keep : List Grant) : Overlay.empty.excess s path principal keep =
      Overlay.empty.excess t path principal keep := by
  rw [Overlay.excess, Overlay.excess, Overlay.seen_empty, Overlay.seen_empty,
    ← h.subtree_eq hs ht hplaces]
  refine List.flatMap_congr fun p hp => ?_
  obtain ⟨hnode, hwithin⟩ := List.mem_filter.1 hp
  rw [Overlay.acl, Overlay.acl, Overlay.node?_empty, Overlay.node?_empty,
    h.node (hs.isPath (Table.mem_keys.1 hnode)) (hplaces p hwithin)]

end State.SameOn

namespace Action

private theorem sees_of_mem {a : Action} {r : String} (hr : r ∈ a.subtrees) : a.Sees r :=
  .inl ⟨r, hr, Path.within_refl r⟩

/-- An action finds the same in states that are the same where it looks. -/
theorem look_inspect_congr {a : Action} (ha : a.Proper) (hs : s.Tree) (ht : t.Tree)
    (h : State.SameOn a.Sees (· ∈ a.ids) s t) :
    (a.inspect .empty).look s = (a.inspect .empty).look t := by
  have hpath {r : String} (hr : r ∈ a.subtrees) : Path.IsPath r ∧ a.Sees r :=
    ⟨ha.isPath hr, sees_of_mem hr⟩
  cases a with
  | ensure kind id path =>
    refine Attempt.look_bind_congr (h.look_kindOf List.mem_cons_self) fun found => ?_
    cases found with
    | none => rfl
    | some existing => dsimp only; split <;> rfl
  | addMember group member =>
    have hgroup : s.principals.get? group = t.principals.get? group :=
      h.principal List.mem_cons_self
    have hmember : s.principals.get? member = t.principals.get? member :=
      h.principal (List.mem_cons_of_mem _ List.mem_cons_self)
    rw [look_inspect_addMember, look_inspect_addMember]
    simp only [State.isMember, Overlay.kind?_empty, Table.contains, hgroup, hmember]
    rfl
  | removeMember group member =>
    refine Attempt.look_bind_congr (h.look_principal List.mem_cons_self) fun found => ?_
    cases found with
    | none => rfl
    | some g => dsimp only; split <;> rfl
  | setPermission path entry =>
    obtain ⟨hr, hsees⟩ := hpath List.mem_cons_self
    refine Attempt.look_bind_congr (h.look_permissions hr hsees) fun acl => ?_
    split <;> rfl
  | setProperty path key value =>
    obtain ⟨hr, hsees⟩ := hpath List.mem_cons_self
    refine Attempt.look_bind_congr (h.look_property hr hsees key) fun current => ?_
    split <;> rfl
  | copy source target =>
    obtain ⟨hsource, hseesSource⟩ := hpath List.mem_cons_self
    obtain ⟨htarget, hseesTarget⟩ := hpath (List.mem_cons_of_mem _ List.mem_cons_self)
    refine Attempt.look_bind_congr (h.look_hasNode htarget hseesTarget) fun atTarget => ?_
    cases atTarget with
    | true => rfl
    | false =>
      refine Attempt.look_bind_congr (h.look_hasNode hsource hseesSource) fun atSource => ?_
      cases atSource <;> rfl
  | move source target =>
    obtain ⟨hsource, hseesSource⟩ := hpath List.mem_cons_self
    obtain ⟨htarget, hseesTarget⟩ := hpath (List.mem_cons_of_mem _ List.mem_cons_self)
    refine Attempt.look_bind_congr (h.look_hasNode hsource hseesSource) fun atSource => ?_
    refine Attempt.look_bind_congr (h.look_hasNode htarget hseesTarget) fun atTarget => ?_
    cases atSource <;> cases atTarget <;> rfl
  | delete path =>
    obtain ⟨hr, hsees⟩ := hpath List.mem_cons_self
    refine Attempt.look_bind_congr (h.look_hasNode hr hsees) fun found => ?_
    cases found <;> rfl
  | purge path principal keep =>
    have hexcess := h.excess_eq hs ht path
      (fun p hp => .inl ⟨path, List.mem_cons_self, hp⟩) principal keep
    rw [look_inspect_purge_empty, look_inspect_purge_empty, hexcess]
  | checkPresent id wanted =>
    refine Attempt.look_bind_congr (h.look_kindOf List.mem_cons_self) fun found => ?_
    cases found with
    | none => rfl
    | some kind =>
      cases wanted with
      | none => rfl
      | some k => dsimp only; split <;> rfl
  | checkAbsent id =>
    refine Attempt.look_bind_congr (h.look_kindOf List.mem_cons_self) fun found => ?_
    cases found <;> rfl
  | checkPermission path entry =>
    obtain ⟨hr, hsees⟩ := hpath List.mem_cons_self
    refine Attempt.look_bind_congr (h.look_permissions hr hsees) fun acl => ?_
    split <;> rfl

end Action

/-! ## Changing -/

/-- The operation that makes the change. -/
def Change.run (s : State) : Change → Except Refusal State
  | create kind id path => s.ensurePrincipal kind id path
  | addMember group member => s.addMember group member
  | removeMember group member => s.removeMember group member
  | grant path entry => s.setPermission path entry
  | setProperty path key value => s.setProperty path key value
  | copy source target => s.transfer source target true
  | move source target => s.transfer source target false
  | delete path => s.delete path
  | revoke _ batch => s.revokeAll batch

private theorem Change.answer_call (s : State) (c : Change) :
    (s.answer c.call).map (·.2) = c.run s := by
  have hdone : ∀ outcome : Except Refusal State, (State.done outcome).map (·.2) = outcome := by
    intro outcome
    cases outcome <;> rfl
  cases c <;> exact hdone _

private theorem Change.exists_answer {s' : State} {c : Change} (h : c.run s = .ok s') :
    ∃ x, s.answer c.call = .ok (x, s') := by
  rw [← c.answer_call] at h
  cases hanswer : s.answer c.call with
  | error e => simp [hanswer, Except.map] at h
  | ok r =>
    rw [hanswer] at h
    cases h
    exact ⟨r.1, rfl⟩

/-- The outcome of an action that is applied, and the state after it. -/
def Action.step (a : Action) (s : State) : Outcome × State :=
  match (a.inspect .empty).look s with
  | .error failure => (.failed failure, s)
  | .ok (.settled reason) => (.skipped reason, s)
  | .ok (.due c) =>
    match c.run s with
    | .ok s' => (.applied c.done, s')
    | .error e => (.failed e.failure, s)

theorem Action.on_attempt_apply_eq_step (clock : String) (s : State) (a : Action) :
    let passage := Running.on clock (a.attempt .apply .empty) s
    passage.result.1 = (a.step s).1 ∧ passage.state = (a.step s).2 := by
  obtain ⟨reads, -, hon⟩ := a.on_attempt_apply clock s .empty
  rw [hon, step]
  cases (a.inspect .empty).look s with
  | error failure => exact ⟨rfl, rfl⟩
  | ok finding =>
    cases finding with
    | settled reason => exact ⟨rfl, rfl⟩
    | due c =>
      simp only [← c.answer_call s]
      cases s.answer c.call with
      | error e => exact ⟨rfl, rfl⟩
      | ok r => exact ⟨rfl, rfl⟩

/-! ### What stays as it is -/

namespace State

variable {places ids : String → Prop}

theorem sameOn_insert {id : String} (hid : ¬ ids id) (p : Principal) :
    SameOn places ids s { s with principals := s.principals.insert id p } := by
  refine ⟨fun _ _ => rfl, fun {other} hother => ?_⟩
  rw [Table.get?_insert_of_ne]
  rintro rfl
  exact hid hother

theorem sameOn_modifyNode {path : String} (hpath : ¬ places path) (f : Node → Node) :
    SameOn places ids s (s.modifyNode path f) := by
  refine ⟨fun {p} _ hplace => ?_, fun _ => rfl⟩
  rw [get?_modifyNode, if_neg]
  rintro rfl
  exact hpath hplace

theorem sameOn_revokeEach {batch : List Grant} (hbatch : ∀ g ∈ batch, ¬ places g.path) :
    SameOn places ids s (s.revokeEach batch) := by
  induction batch generalizing s with
  | nil => exact .refl s
  | cons g rest ih =>
    exact (sameOn_modifyNode (hbatch g List.mem_cons_self) _).trans
      (ih fun g' hg' => hbatch g' (List.mem_cons_of_mem _ hg'))

theorem sameOn_transfer (hs : s.Tree) {source target : String} {keepSource : Bool} {s' : State}
    (hsource : Path.IsPath source) (htarget : Path.IsPath target)
    (houtside : ¬ Path.within target source = true)
    (hplaces : ∀ p, places p → ¬ Path.within p source = true ∧ ¬ Path.within p target = true)
    (h : s.transfer source target keepSource = .ok s') : SameOn places ids s s' := by
  constructor
  · intro p hp hplace
    obtain ⟨hnotSource, hnotTarget⟩ := hplaces p hplace
    rw [get?_transfer hs hsource (source_ne_root htarget houtside) htarget h hp, if_neg hnotTarget,
      if_neg (by simp [hnotSource])]
  · intro id _
    obtain ⟨-, -, -, rfl⟩ := transfer_eq_ok h
    rfl

theorem sameOn_delete {path : String} {s' : State}
    (hplaces : ∀ p, places p → ¬ Path.within p path = true) (h : s.delete path = .ok s') :
    SameOn places ids s s' := by
  constructor
  · intro p _ hplace
    rw [get?_delete h, if_neg (hplaces p hplace)]
  · intro id _
    obtain ⟨-, rfl⟩ := delete_eq_ok h
    rfl

end State

namespace Action

variable {a : Action} {c : Change} {s' : State}

theorem verdict_of_look (h : (a.inspect .empty).look s = .ok (.due c)) :
    a.verdict .empty s = some (some c) := by
  rw [verdict, h]
  rfl

/-- A change leaves everything as it is that its action does not name. -/
theorem frame_run (hs : s.Tree) (ha : a.Proper) (hdue : (a.inspect .empty).look s = .ok (.due c))
    (h : c.run s = .ok s') : State.SameOn (¬ a.Covers ·) (· ∉ a.ids) s s' := by
  have hverdict := verdict_of_look hdue
  have hof := of_verdict_due hverdict
  have hroot {r : String} (hr : r ∈ a.subtrees) : ¬ ¬ a.Covers r := fun hnot =>
    hnot ⟨r, hr, Path.within_refl r⟩
  cases hof with
  | create kind id path =>
    rcases State.ensurePrincipal_eq_ok h with ⟨rfl, -⟩ | ⟨-, rfl⟩
    · exact .refl s'
    · exact State.sameOn_insert (by simp [ids]) _
  | addMember group member =>
    obtain ⟨p, -, -, rfl⟩ := State.changeMembers_eq_ok (State.addMember_eq_ok h).2
    exact State.sameOn_insert (by simp [ids]) _
  | removeMember group member =>
    obtain ⟨p, -, -, rfl⟩ := State.changeMembers_eq_ok h
    exact State.sameOn_insert (by simp [ids]) _
  | grant path entry =>
    obtain ⟨-, rfl⟩ := State.changeNode_eq_ok h
    exact State.sameOn_modifyNode (hroot List.mem_cons_self) _
  | setProperty path key value =>
    obtain ⟨-, rfl⟩ := State.changeNode_eq_ok h
    exact State.sameOn_modifyNode (hroot List.mem_cons_self) _
  | copy source target | move source target =>
    obtain ⟨hsource, htarget, houtside⟩ := ha.sound (by constructor)
    refine State.sameOn_transfer hs hsource htarget houtside (fun p hplace => ?_) h
    exact ⟨fun hp => hplace ⟨source, by simp [subtrees], hp⟩,
      fun hp => hplace ⟨target, by simp [subtrees], hp⟩⟩
  | delete path =>
    exact State.sameOn_delete (fun p hplace hp => hplace ⟨path, List.mem_cons_self, hp⟩) h
  | revoke path principal keep batch =>
    cases due_purge hverdict
    obtain ⟨-, rfl⟩ := State.revokeAll_eq_ok h
    refine State.sameOn_revokeEach fun g hg hplace => hplace ⟨path, List.mem_cons_self, ?_⟩
    obtain ⟨p, n, held, -, hwithin, -, hexcess⟩ := mem_excess.1 hg
    rw [(Overlay.of_excess?_eq_some hexcess).2.1]
    exact hwithin

/-- Outside of what it names an action changes nothing. -/
theorem frame_step (hs : s.Tree) (ha : a.Proper) :
    State.SameOn (¬ a.Covers ·) (· ∉ a.ids) s (a.step s).2 := by
  rw [step]
  cases hlook : (a.inspect .empty).look s with
  | error failure => exact .refl s
  | ok finding =>
    cases finding with
    | settled reason => exact .refl s
    | due c =>
      dsimp only
      cases hrun : c.run s with
      | error e => exact .refl s
      | ok s' => exact frame_run hs ha hlook hrun

/-- After an action the nodes form a tree. -/
theorem tree_step (hs : s.Tree) (ha : a.Proper) : (a.step s).2.Tree := by
  rw [step]
  cases hlook : (a.inspect .empty).look s with
  | error failure => exact hs
  | ok finding =>
    cases finding with
    | settled reason => exact hs
    | due c =>
      dsimp only
      cases hrun : c.run s with
      | error e => exact hs
      | ok s' =>
        obtain ⟨x, hanswer⟩ := Change.exists_answer hrun
        exact hs.answer (ha.sound (of_verdict_due (verdict_of_look hlook))) hanswer

end Action

/-! ### What is changed -/

/-- Both operations are refused for the same reason, or they lead to states that are the same at the
places and for the principals. -/
inductive State.Matches (places ids : String → Prop) :
    Except Refusal State → Except Refusal State → Prop
  | ok {s t : State} (h : SameOn places ids s t) : Matches places ids (.ok s) (.ok t)
  | error (e : Refusal) : Matches places ids (.error e) (.error e)

namespace State.SameOn

variable {places ids : String → Prop}

theorem insert (h : SameOn places ids s t) (id : String) (p : Principal) :
    SameOn places ids { s with principals := s.principals.insert id p }
      { t with principals := t.principals.insert id p } := by
  refine ⟨h.node, fun {other} hother => ?_⟩
  rw [Table.get?_insert, Table.get?_insert, h.principal hother]

theorem ensurePrincipal (h : SameOn places ids s t) (kind : PrincipalKind) {id : String}
    (hid : ids id) (path : Option String) :
    Matches places ids (s.ensurePrincipal kind id path) (t.ensurePrincipal kind id path) := by
  rw [State.ensurePrincipal, State.ensurePrincipal, h.principal hid]
  cases t.principals.get? id with
  | none => exact .ok (h.insert id _)
  | some p =>
    dsimp only
    split
    · exact .ok h
    · exact .error _

theorem changeMembers (h : SameOn places ids s t) {group : String} (hgroup : ids group)
    (f : NameSet → NameSet) :
    Matches places ids (s.changeMembers group f) (t.changeMembers group f) := by
  rw [State.changeMembers, State.changeMembers, h.principal hgroup]
  cases t.principals.get? group with
  | none => exact .error _
  | some p =>
    dsimp only
    cases p.kind with
    | user => exact .error _
    | group => exact .ok (h.insert group _)

theorem addMember (h : SameOn places ids s t) {group member : String} (hgroup : ids group)
    (hmember : ids member) :
    Matches places ids (s.addMember group member) (t.addMember group member) := by
  rw [State.addMember, State.addMember, Table.contains, Table.contains, h.principal hmember]
  split
  · exact h.changeMembers hgroup _
  · exact .error _

theorem modifyNode (h : SameOn places ids s t) (path : String) (f : Node → Node) :
    SameOn places ids (s.modifyNode path f) (t.modifyNode path f) := by
  refine ⟨fun {p} hp hplace => ?_, h.principal⟩
  rw [get?_modifyNode, get?_modifyNode]
  split
  · next heq => rw [← heq, h.node hp hplace]
  · exact h.node hp hplace

theorem changeNode (h : SameOn places ids s t) {path : String} (hpath : Path.IsPath path)
    (hplace : places path) (f : Node → Node) :
    Matches places ids (s.changeNode path f) (t.changeNode path f) := by
  rw [State.changeNode, State.changeNode, h.hasNode hpath hplace]
  split
  · exact .ok (h.modifyNode path f)
  · exact .error _

theorem revokeEach (h : SameOn places ids s t) (batch : List Grant) :
    SameOn places ids (s.revokeEach batch) (t.revokeEach batch) := by
  induction batch generalizing s t with
  | nil => exact h
  | cons g rest ih => exact ih (h.modifyNode g.path _)

/-- The same is missing above a path, if above it the states are the same. -/
theorem missingParent?_eq (h : SameOn places ids s t) {path : String} (hpath : Path.IsPath path)
    (habove : ∀ up, Path.parent? path = some up → places up) :
    s.missingParent? path = t.missingParent? path := by
  rw [missingParent?, missingParent?]
  cases hup : Path.parent? path with
  | none => rfl
  | some up => rw [Option.bind_some, Option.bind_some, h.hasNode (hpath.parent hup) (habove up hup)]

/-- A transfer is refused in both states for the same reason, or in neither. -/
theorem transfer_refused (h : SameOn places ids s t) {source target : String}
    (hsource : Path.IsPath source) (htarget : Path.IsPath target) (keepSource : Bool)
    (hatSource : places source) (hatTarget : places target)
    (habove : ∀ up, Path.parent? target = some up → places up) :
    (s.transfer source target keepSource).map (fun _ => ()) =
      (t.transfer source target keepSource).map (fun _ => ()) := by
  rw [State.transfer, State.transfer, h.hasNode hsource hatSource, h.hasNode htarget hatTarget,
    h.missingParent?_eq htarget habove]
  split
  · rfl
  · split
    · rfl
    · split <;> rfl

/-- Both transfers go through or neither does, if above the target, too, the states are the same. -/
theorem transfer (h : SameOn places ids s t) (hs : s.Tree) (ht : t.Tree) {source target : String}
    (hsource : Path.IsPath source) (htarget : Path.IsPath target)
    (houtside : ¬ Path.within target source = true) (keepSource : Bool) {changed : String → Prop}
    (hchanged : ∀ p, changed p → places p) (hatSource : ∀ p, Path.within p source = true → places p)
    (hatTarget : places target) (habove : ∀ up, Path.parent? target = some up → places up) :
    Matches changed ids (s.transfer source target keepSource)
      (t.transfer source target keepSource) := by
  have hsame := h.transfer_refused hsource htarget keepSource
    (hatSource source (Path.within_refl _)) hatTarget habove
  have hroot := source_ne_root htarget houtside
  cases hs' : s.transfer source target keepSource with
  | error e =>
    cases ht' : t.transfer source target keepSource with
    | ok t' => simp [hs', ht', Except.map] at hsame
    | error e' =>
      rw [hs', ht'] at hsame
      cases hsame
      exact .error e
  | ok s' =>
    cases ht' : t.transfer source target keepSource with
    | error e => simp [hs', ht', Except.map] at hsame
    | ok t' =>
      refine .ok ⟨fun {p} hp hplace => ?_, fun {id} hid => ?_⟩
      · rw [get?_transfer hs hsource hroot htarget hs' hp,
          get?_transfer ht hsource hroot htarget ht' hp]
        split
        · next hwithin =>
          have htargetRoot := hs.target_ne_root hs'
          exact h.node (hp.rebase htarget hsource htargetRoot hwithin)
            (hatSource _ (Path.within_rebase htargetRoot hwithin _))
        · split
          · rfl
          · exact h.node hp (hchanged p hplace)
      · obtain ⟨-, -, -, rfl⟩ := transfer_eq_ok hs'
        obtain ⟨-, -, -, rfl⟩ := transfer_eq_ok ht'
        exact h.principal hid

theorem delete (h : SameOn places ids s t) (hs : s.Tree) (ht : t.Tree) {path : String}
    (hplaces : ∀ p, Path.within p path = true → places p) :
    Matches places ids (s.delete path) (t.delete path) := by
  rw [State.delete, State.delete, h.subtree_eq hs ht hplaces]
  split
  · exact .error _
  · split
    · exact .error _
    · refine .ok ⟨fun {p} hp hplace => ?_, h.principal⟩
      rw [Table.get?_filterKeys, Table.get?_filterKeys]
      split
      · exact h.node hp hplace
      · rfl

end State.SameOn

namespace Action

variable {a : Action} {c : Change}

/-- A change that is due makes the same of what its action names, in states that are the same where
the action looks. -/
theorem matches_run (ha : a.Proper) (hs : s.Tree) (ht : t.Tree)
    (h : State.SameOn a.Sees (· ∈ a.ids) s t)
    (hdue : (a.inspect .empty).look s = .ok (.due c)) :
    State.Matches a.Covers (· ∈ a.ids) (c.run s) (c.run t) := by
  have hverdict := verdict_of_look hdue
  have hcovered : State.SameOn a.Covers (· ∈ a.ids) s t :=
    h.mono (fun _ _ => .inl) fun _ => id
  have hroot {r : String} (hr : r ∈ a.subtrees) : Path.IsPath r ∧ a.Covers r :=
    ⟨ha.isPath hr, r, hr, Path.within_refl r⟩
  cases of_verdict_due hverdict with
  | create kind id path => exact hcovered.ensurePrincipal kind List.mem_cons_self path
  | addMember group member => exact hcovered.addMember (by simp [ids]) (by simp [ids])
  | removeMember group member => exact hcovered.changeMembers List.mem_cons_self _
  | grant path entry =>
    obtain ⟨hpath, hplace⟩ := hroot List.mem_cons_self
    exact hcovered.changeNode hpath hplace _
  | setProperty path key value =>
    obtain ⟨hpath, hplace⟩ := hroot List.mem_cons_self
    exact hcovered.changeNode hpath hplace _
  | copy source target | move source target =>
    obtain ⟨hsource, htarget, houtside⟩ := ha.sound (by constructor)
    exact h.transfer hs ht hsource htarget houtside _ (fun _ => .inl)
      (fun p hp => .inl ⟨source, by simp [subtrees], hp⟩) (sees_of_mem (by simp [subtrees]))
      (fun up hup => .inr ⟨target, by simp [subtrees], hup⟩)
  | delete path => exact hcovered.delete hs ht fun p hp => ⟨path, List.mem_cons_self, hp⟩
  | revoke path principal keep batch =>
    have hexcess := hcovered.excess_eq hs ht path
      (fun p hp => ⟨path, List.mem_cons_self, hp⟩) principal keep
    cases due_purge hverdict
    rw [Change.run, Change.run, State.revokeAll_excess, hexcess, State.revokeAll_excess]
    exact .ok (hcovered.revokeEach _)

/-- The outcome of an action, and what it makes of what it names, depend on what it sees. -/
theorem sameOn_step (ha : a.Proper) (hs : s.Tree) (ht : t.Tree)
    (h : State.SameOn a.Sees (· ∈ a.ids) s t) :
    (a.step s).1 = (a.step t).1 ∧ State.SameOn a.Covers (· ∈ a.ids) (a.step s).2 (a.step t).2 := by
  have hsame := look_inspect_congr ha hs ht h
  have hcovered : State.SameOn a.Covers (· ∈ a.ids) s t :=
    h.mono (fun _ _ => .inl) fun _ => id
  rw [step, step, ← hsame]
  cases hlook : (a.inspect .empty).look s with
  | error failure => exact ⟨rfl, hcovered⟩
  | ok finding =>
    cases finding with
    | settled reason => exact ⟨rfl, hcovered⟩
    | due c =>
      dsimp only
      have hmatches := matches_run ha hs ht h hlook
      generalize c.run s = x at hmatches
      generalize c.run t = y at hmatches
      cases hmatches with
      | ok h' => exact ⟨rfl, h'⟩
      | error e => exact ⟨rfl, hcovered⟩

end Action

end

end Entitle
