import Entitle.Proofs.Undisturbed

/-!
# What an inspection finds

An inspection reads through an overlay. Here it is said what is seen of a state in this way, and
what every kind of action comes down to: it fails, it is settled, or one change is due.

## Main definitions

* `Overlay.kind?`, `Overlay.node?`: what is seen of a principal and of a path.
* `Action.verdict`: nothing if an inspection fails, else the change that it finds, if there is one.

## Main statements

* `Action.verdict_ensure` to `Action.verdict_checkPermission`: the verdict on every kind of action.
-/
namespace Entitle

namespace Overlay

variable (o : Overlay) (s : State)

/-- The kind of the principal that is seen under an id. -/
def kind? (id : String) : Option PrincipalKind :=
  match s.principals.get? id with
  | some p => some p.kind
  | none => o.principals.get? id

/-- The node that is seen at a path. -/
def node? (path : String) : Option Node :=
  (o.backing path).bind s.nodes.get?

/-- The permissions that are seen at a path. -/
def acl (path : String) : List Permission :=
  ((o.node? s path).map (·.acl)).getD []

variable {o s}

theorem acl_eq {path : String} {n : Node} (h : o.node? s path = some n) : o.acl s path = n.acl := by
  simp [acl, h]

/-! ## Without notes -/

@[simp] theorem kind?_empty (id : String) :
    empty.kind? s id = (s.principals.get? id).map (·.kind) := by
  rw [kind?]
  cases s.principals.get? id <;> rfl

@[simp] theorem node?_empty (path : String) : empty.node? s path = s.nodes.get? path := by
  simp [node?]

theorem isSome_node?_empty (path : String) : (empty.node? s path).isSome = s.hasNode path := by
  rw [node?_empty]
  rfl

/-! ## Reading -/

theorem look_principal (id : String) :
    (call (.principal id)).look s = .ok (s.principals.get? id) := by
  rw [Attempt.look_call]
  rfl

@[simp] theorem look_kindOf (id : String) : (o.kindOf id).look s = .ok (o.kind? s id) := by
  refine (Attempt.look_call_bind (look_principal id) _).trans ?_
  rw [kind?]
  cases s.principals.get? id <;> rfl

@[simp] theorem look_hasNode (path : String) :
    (o.hasNode path).look s = .ok (o.node? s path).isSome := by
  rw [hasNode, node?]
  cases o.backing path with
  | none => rfl
  | some real =>
    rw [Attempt.look_call]
    rfl

/-- The failure that a node is missing names the path that was asked for. -/
theorem relabel_missing (real path : String) :
    relabel real path (Refusal.notFound real).failure = .notFound path :=
  congrArg Failure.notFound (if_pos rfl)

theorem look_property (path key : String) :
    (o.property path key).look s =
      match o.node? s path with
      | some n => .ok (n.properties.get? key)
      | none => .error (.notFound path) := by
  rw [property, node?]
  cases o.backing path with
  | none => rfl
  | some real =>
    rw [Attempt.look_adapt, Attempt.look_call, Option.bind_some]
    simp only [State.answer, State.node]
    cases s.nodes.get? real with
    | some n => rfl
    | none => exact congrArg Except.error (relabel_missing real path)

theorem look_permissions (path : String) :
    (o.permissions path).look s =
      match o.node? s path with
      | some n => .ok n.acl
      | none => .error (.notFound path) := by
  rw [permissions, node?]
  cases o.backing path with
  | none => rfl
  | some real =>
    rw [Attempt.look_adapt, Attempt.look_call, Option.bind_some]
    simp only [State.answer, State.node]
    cases s.nodes.get? real with
    | some n => rfl
    | none => exact congrArg Except.error (relabel_missing real path)

theorem look_descendants (path : String) :
    (call (.descendants path)).look s = .ok (s.subtree path) := by
  rw [Attempt.look_call]
  rfl

theorem look_collect (sources : List (String × String)) :
    (o.collect sources).look s =
      .ok (sources.flatMap fun e => o.seenAt e.1 e.2 (s.subtree e.2)) := by
  induction sources with
  | nil => rfl
  | cons e rest ih =>
    refine (Attempt.look_call_bind (look_descendants e.2) _).trans ?_
    rw [Attempt.look_bind, ih, List.flatMap_cons]
    rfl

/-- The paths of the nodes that are seen at or beneath a path. -/
def seen (o : Overlay) (s : State) (root : String) : List String :=
  if o.nodes.isEmpty then s.subtree root
  else (NameSet.ofList
    ((o.sourcesOf root).flatMap fun e => o.seenAt e.1 e.2 (s.subtree e.2))).toList

@[simp] theorem seen_empty (root : String) : empty.seen s root = s.subtree root := rfl

@[simp] theorem look_subtree (root : String) : (o.subtree root).look s = .ok (o.seen s root) := by
  rw [subtree, seen]
  split
  · exact look_descendants root
  · simp only [Attempt.look_bind, look_collect, Except.bind]
    rfl

/-- What a purge has to revoke on the nodes that are seen. -/
def excess (o : Overlay) (s : State) (path : String) (principal : Option String)
    (keep : List Grant) : List Grant :=
  (o.seen s path).flatMap fun p => (o.acl s p).filterMap (excess? principal keep p)

theorem look_revocations {principal : Option String} {keep : List Grant} {nodes : List String}
    (h : ∀ p ∈ nodes, (o.node? s p).isSome = true) :
    (o.revocations principal keep nodes).look s =
      .ok (nodes.flatMap fun p => (o.acl s p).filterMap (excess? principal keep p)) := by
  induction nodes with
  | nil => rfl
  | cons p rest ih =>
    obtain ⟨n, hn⟩ := Option.isSome_iff_exists.1 (h p List.mem_cons_self)
    have hrest := ih fun q hq => h q (List.mem_cons_of_mem _ hq)
    simp only [revocations, Attempt.look_bind, look_permissions, hn, Except.bind, hrest,
      List.flatMap_cons, acl_eq hn]
    rfl

theorem look_excess {path : String} {principal : Option String} {keep : List Grant}
    (h : ∀ p ∈ o.seen s path, (o.node? s p).isSome = true) :
    (o.revocations principal keep (o.seen s path)).look s =
      .ok (o.excess s path principal keep) :=
  look_revocations h

end Overlay

/-- Is the name among the members of the group? -/
def State.isMember (s : State) (group member : String) : Bool :=
  (s.principals.get? group).any (·.members.contains member)

/-! ## Verdicts -/

/-- The change that is due, if one is. -/
def Finding.change? : Finding → Option Change
  | settled _ => none
  | due c => some c

namespace Action

/-- Nothing if the inspection of the action fails, else the change that it finds, if one is due. -/
def verdict (o : Overlay) (s : State) (a : Action) : Option (Option Change) :=
  ((a.inspect o).look s).toOption.map Finding.change?

/-- A change that is due is one of the action. -/
theorem of_verdict_due {o : Overlay} {s : State} {a : Action} {c : Change}
    (h : a.verdict o s = some (some c)) : Change.Of a c := by
  have habout := Running.look_of_meets (a.meets_inspect (fun _ _ => trivial : ∀ c : Call,
    c.reads = true → True) o) s
  rw [verdict] at h
  cases hlook : (a.inspect o).look s with
  | error failure => simp [hlook, Except.toOption] at h
  | ok finding =>
    rw [hlook] at h
    cases finding with
    | settled reason => cases h
    | due c' =>
      cases h
      exact habout _ hlook

variable (o : Overlay) (s : State)

theorem verdict_ensure (kind : PrincipalKind) (id : String) (path : Option String) :
    (ensure kind id path).verdict o s =
      match o.kind? s id with
      | some existing => if existing = kind then some none else none
      | none => some (some (.create kind id path)) := by
  simp only [verdict, inspect, Attempt.look_bind, Overlay.look_kindOf, Except.bind]
  cases o.kind? s id with
  | none => rfl
  | some existing =>
    by_cases h : existing = kind <;> simp [h, Except.toOption, Finding.change?]

/-- What an action that adds a member finds. -/
theorem look_inspect_addMember (group member : String) :
    ((addMember group member).inspect o).look s =
      if s.isMember group member then
        .ok (.settled s!"'{member}' is already a member of '{group}'")
      else match o.kind? s group with
        | some .group =>
          if (o.kind? s member).isSome then .ok (.due (.addMember group member))
          else .error (.notFound member)
        | some .user =>
          .error (if s.principals.contains group then .conflict s!"'{group}' is not a group"
            else .notFound group)
        | none => .error (.notFound group) := by
  have hmember : Attempt.look (do
      match ← o.kindOf member with
      | some _ => pure (Finding.due (.addMember group member))
      | none => throw (.notFound member)) s =
        if (o.kind? s member).isSome then .ok (.due (.addMember group member))
        else .error (.notFound member) := by
    rw [Attempt.look_bind, Overlay.look_kindOf]
    cases o.kind? s member <;> rfl
  rw [inspect, State.isMember, Attempt.look_call_bind (Overlay.look_principal group)]
  cases hg : s.principals.get? group with
  | none =>
    have hkind : o.kind? s group = o.principals.get? group := by simp [Overlay.kind?, hg]
    have hcontains : s.principals.contains group = false := by simp [Table.contains, hg]
    simp only [Option.any_none, Bool.false_eq_true, if_false, hkind, hcontains]
    cases hnoted : o.principals.get? group with
    | none => rfl
    | some kind =>
      cases kind with
      | user => rfl
      | group =>
        simp only [ne_eq, not_true_eq_false, if_false]
        exact hmember
  | some g =>
    have hkind : o.kind? s group = some g.kind := by simp [Overlay.kind?, hg]
    have hcontains : s.principals.contains group = true := by simp [Table.contains, hg]
    simp only [Option.any_some, hkind, hcontains, if_true]
    split
    · rfl
    · cases hgroup : g.kind with
      | user => rfl
      | group =>
        simp only [ne_eq, not_true_eq_false, if_false]
        exact hmember

theorem verdict_addMember (group member : String) :
    (addMember group member).verdict o s =
      if s.isMember group member then some none
      else if o.kind? s group = some .group ∧ (o.kind? s member).isSome then
        some (some (.addMember group member))
      else none := by
  rw [verdict, look_inspect_addMember]
  by_cases h : s.isMember group member = true
  · rw [if_pos h, if_pos h]
    rfl
  · rw [if_neg h, if_neg h]
    cases o.kind? s group with
    | none => rfl
    | some kind => cases kind <;> cases o.kind? s member <;> rfl

theorem verdict_removeMember (group member : String) :
    (removeMember group member).verdict o s =
      if s.isMember group member then some (some (.removeMember group member))
      else some none := by
  rw [verdict, inspect, State.isMember]
  rw [Attempt.look_call_bind (Overlay.look_principal group)]
  cases s.principals.get? group with
  | none => rfl
  | some g =>
    simp only [Option.any_some]
    by_cases h : g.members.contains member = true
    · rw [if_pos h, if_pos h]
      rfl
    · rw [if_neg h, if_neg h]
      rfl

theorem verdict_setPermission (path : String) (entry : Permission) :
    (setPermission path entry).verdict o s =
      (o.node? s path).map fun n =>
        if n.acl.any (·.covers entry) then none else some (.grant path entry) := by
  simp only [verdict, inspect, Attempt.look_bind, Overlay.look_permissions]
  cases o.node? s path with
  | none => rfl
  | some n =>
    simp only [Except.bind, Option.map_some]
    cases n.acl.any (·.covers entry) <;> rfl

theorem verdict_setProperty (path key value : String) :
    (setProperty path key value).verdict o s =
      (o.node? s path).map fun n =>
        if n.properties.get? key = some value then none
        else some (.setProperty path key value) := by
  simp only [verdict, inspect, Attempt.look_bind, Overlay.look_property]
  cases o.node? s path with
  | none => rfl
  | some n =>
    by_cases h : n.properties.get? key = some value <;>
      simp [h, Except.bind, Except.toOption, Finding.change?]

theorem verdict_copy (source target : String) :
    (copy source target).verdict o s =
      if (o.node? s target).isSome then some none
      else if (o.node? s source).isSome then some (some (.copy source target))
      else none := by
  simp only [verdict, inspect, Attempt.look_bind, Overlay.look_hasNode, Except.bind]
  cases (o.node? s target).isSome with
  | true => rfl
  | false =>
    simp only [Bool.false_eq_true, if_false, Attempt.look_bind, Overlay.look_hasNode, Except.bind]
    cases (o.node? s source).isSome <;> rfl

theorem verdict_move (source target : String) :
    (move source target).verdict o s =
      match (o.node? s source).isSome, (o.node? s target).isSome with
      | true, false => some (some (.move source target))
      | false, true => some none
      | _, _ => none := by
  simp only [verdict, inspect, Attempt.look_bind, Overlay.look_hasNode, Except.bind]
  cases (o.node? s source).isSome <;> cases (o.node? s target).isSome <;> rfl

theorem verdict_delete (path : String) :
    (delete path).verdict o s =
      if (o.node? s path).isSome then some (some (.delete path)) else some none := by
  simp only [verdict, inspect, Attempt.look_bind, Overlay.look_hasNode, Except.bind]
  cases (o.node? s path).isSome <;> rfl

theorem look_inspect_purge {path : String} {principal : Option String} {keep : List Grant}
    (h : ∀ p ∈ o.seen s path, (o.node? s p).isSome = true) :
    ((purge path principal keep).inspect o).look s =
      .ok (if o.excess s path principal keep = [] then .settled "nothing to revoke"
        else .due (.revoke path (o.excess s path principal keep))) := by
  simp only [inspect, Attempt.look_bind, Overlay.look_subtree, Except.bind, Overlay.look_excess h]
  cases Overlay.excess o s path principal keep with
  | nil => rfl
  | cons g rest => rfl

theorem verdict_purge {path : String} {principal : Option String} {keep : List Grant}
    (h : ∀ p ∈ o.seen s path, (o.node? s p).isSome = true) :
    (purge path principal keep).verdict o s =
      if o.excess s path principal keep = [] then some none
      else some (some (.revoke path (o.excess s path principal keep))) := by
  rw [verdict, look_inspect_purge o s h]
  split <;> rfl

theorem verdict_checkPresent (id : String) (wanted : Option PrincipalKind) :
    (checkPresent id wanted).verdict o s =
      match o.kind? s id with
      | none => none
      | some kind => if wanted.all (kind == ·) then some none else none := by
  simp only [verdict, inspect, Attempt.look_bind, Overlay.look_kindOf, Except.bind]
  cases o.kind? s id with
  | none => rfl
  | some kind =>
    cases wanted with
    | none => rfl
    | some k => by_cases h : kind = k <;> simp [h, Except.toOption, Finding.change?, checkPassed]

theorem verdict_checkAbsent (id : String) :
    (checkAbsent id).verdict o s = if (o.kind? s id).isSome then none else some none := by
  simp only [verdict, inspect, Attempt.look_bind, Overlay.look_kindOf, Except.bind]
  cases o.kind? s id <;> rfl

theorem verdict_checkPermission (path : String) (entry : Permission) :
    (checkPermission path entry).verdict o s =
      if (o.acl s path).any (·.covers entry) then some none else none := by
  simp only [verdict, inspect, Attempt.look_bind, Overlay.look_permissions]
  cases hn : o.node? s path with
  | none => simp [Overlay.acl, hn, Except.bind, Except.toOption]
  | some n =>
    simp only [Overlay.acl_eq hn, Except.bind]
    cases n.acl.any (·.covers entry) <;> rfl

end Action

end Entitle
