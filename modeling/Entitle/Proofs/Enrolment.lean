import Entitle.Proofs.Forecasts
import Entitle.Proofs.Rehearsal

/-!
# Enrolment

Plans that create principals, make them members of groups and check that they are there or not. A
forecast of such a plan notes the principals that it would create, and up to the first failure it
says of every action what will become of it, causes of failure included. The one exception is a
group that an action names although it is a user whom the plan itself creates: both times the action
fails, but the forecast does not find what the application calls no group.

## Main definitions

* `Action.isEnrolment`: actions about principals of which a forecast takes note.
* `Action.misplaced`: the action adds a member to a user whom an earlier action creates.
* `Enrolled`: the notes of a forecast and the state of an application tell the same of principals.

## Main statements

* `Enrolled.look_inspect`: an action that is not misplaced finds the same both ways.
* `Enrolled.step`: an action that goes through keeps notes and state together.
* `Plan.enrolment_foreseen`: a forecast says what an application does, and when it tells the cause.
* `Plan.causes_dryRun_ne_apply`: a user as a group, where the causes differ.
-/
namespace Entitle

/-- Why the action failed, if it did. -/
def Outcome.failure? : Outcome → Option Failure
  | failed failure => some failure
  | _ => none

private theorem Outcome.failure?_of_isFailed {outcome : Outcome} (h : outcome.isFailed = false) :
    outcome.failure? = none := by
  cases outcome with
  | failed failure => cases h
  | _ => rfl

namespace Action

/-! ## Actions about principals -/

/-- Does the action create a principal, add a member to a group, or check whether a principal is
there? -/
def isEnrolment : Action → Bool
  | ensure .. | addMember .. | checkPresent .. | checkAbsent _ => true
  | _ => false

/-- The group and the member, if the action adds one. -/
def membership? : Action → Option (String × String)
  | addMember group member => some (group, member)
  | _ => none

/-- Does the action create a user with the id? -/
def createsUser (id : String) : Action → Bool
  | ensure .user id' _ => id' == id
  | _ => false

/-- Does the action add a member to somebody whom the state does not have, but whom one of the
earlier actions creates as a user? -/
def misplaced (s : State) (before : List PlannedAction) : Action → Bool
  | addMember group _ =>
    !s.principals.contains group && before.any (·.action.createsUser group)
  | _ => false

variable (s : State) (o : Overlay)

/-! ### One action after another -/

section

variable (kind : PrincipalKind) (id : String) (path : Option String)

private theorem next?_ensure : (ensure kind id path).next? s =
    match s.principals.get? id with
    | some p => if p.kind = kind then some s else none
    | none => some { s with principals := s.principals.insert id ⟨id, kind, path, .empty⟩ } := by
  have hverdict := verdict_ensure .empty s kind id path
  rw [Overlay.kind?_empty] at hverdict
  cases hp : s.principals.get? id with
  | some p =>
    simp only [hp, Option.map_some] at hverdict
    split at hverdict
    · next h => simp only [next?_of_settled hverdict, if_pos h]
    · next h => simp only [next?_of_failed hverdict, if_neg h]
  | none =>
    simp only [hp, Option.map_none] at hverdict
    refine next?_of_due (x := ()) hverdict ?_
    simp [Change.call, State.answer, State.ensurePrincipal, hp, State.done, Except.map]

private theorem foresee?_ensure : (ensure kind id path).foresee? s o =
    match o.kind? s id with
    | some existing => if existing = kind then some o else none
    | none => some (o.addPrincipal id kind) := by
  have hverdict := verdict_ensure o s kind id path
  cases hkind : o.kind? s id with
  | some existing =>
    simp only [hkind] at hverdict
    split at hverdict
    · next h => simp only [foresee?_of_settled hverdict, if_pos h]
    · next h => simp only [foresee?_of_failed hverdict, if_neg h]
  | none =>
    simp only [hkind] at hverdict
    exact foresee?_of_due hverdict

end

section

variable (group member : String)

private theorem next?_addMember {s' : State} (h : (addMember group member).next? s = some s') :
    (s.isMember group member = true ∧ s' = s) ∨
      (s.isMember group member = false ∧ ∃ g, s.principals.get? group = some g ∧
        s' = { s with principals :=
          s.principals.insert group { g with members := g.members.insert member } }) := by
  have hverdict := verdict_addMember .empty s group member
  rcases next?_eq_some h with ⟨hsettled, rfl⟩ | ⟨c, x, hdue, hanswer⟩
  · refine .inl ⟨?_, rfl⟩
    rw [hsettled] at hverdict
    by_contra hnot
    rw [if_neg hnot] at hverdict
    split at hverdict <;> cases hverdict
  · rw [hdue] at hverdict
    split at hverdict
    · cases hverdict
    · next hnot =>
      obtain rfl : c = .addMember group member := by
        split at hverdict <;> simp_all
      obtain ⟨-, hchange⟩ := State.addMember_eq_ok (State.done_eq_ok hanswer)
      obtain ⟨g, hg, -, rfl⟩ := State.changeMembers_eq_ok hchange
      exact .inr ⟨by simpa using hnot, g, hg, rfl⟩

/-- A group that is there gets every member that is there. -/
theorem exists_next?_addMember {due : Option Change}
    (h : (addMember group member).verdict .empty s = some due) :
    ∃ s', (addMember group member).next? s = some s' := by
  have hverdict := h
  rw [verdict_addMember, Overlay.kind?_empty, Overlay.kind?_empty] at hverdict
  split at hverdict
  · cases hverdict
    exact ⟨s, next?_of_settled h⟩
  · split at hverdict
    · next hkinds =>
      obtain ⟨g, hg, hgroup⟩ := Option.map_eq_some_iff.1 hkinds.1
      have hmember : s.principals.contains member = true := by simpa [Table.contains] using hkinds.2
      obtain ⟨s', hs'⟩ := State.exists_changeMembers hg hgroup (·.insert member)
      have hanswer : s.answer (.addMember group member) = .ok ((), s') := by
        rw [State.answer, State.addMember, if_pos hmember, hs']
        rfl
      cases hverdict
      exact ⟨_, next?_of_due h hanswer⟩
    · cases hverdict

/-- A forecast notes no members. -/
theorem foresee?_addMember {due : Option Change}
    (h : (addMember group member).verdict o s = some due) :
    (addMember group member).foresee? s o = some o := by
  refine foresee?_of_unnoted h fun c hc => ?_
  cases hc
  exact ⟨rfl, rfl⟩

end

/-! ### Failures -/

section

variable {s} {o} {clock : String} {a : Action} {failure : Failure}

/-- An action whose inspection fails, fails for the same cause. -/
theorem attempt_apply_of_error (h : (a.inspect .empty).look s = .error failure) :
    (Running.on clock (a.attempt .apply .empty) s).result.1 = .failed failure := by
  obtain ⟨reads, -, hon⟩ := a.on_attempt_apply clock s .empty
  rw [hon, h]
  rfl

private theorem attempt_dryRun_of_error (h : (a.inspect o).look s = .error failure) :
    (Running.on clock (a.attempt .dryRun o) s).result.1 = .failed failure := by
  obtain ⟨reads, -, hon⟩ := a.on_attempt_dryRun clock s o
  rw [hon, look_carryOut_dryRun, h]
  rfl

end

end Action

/-! ## What both know of principals -/

/-- The notes `o` of a forecast about the state `s₀`, and the state `s` of an application, after the
actions `before` went through both times: the principals have the same kinds, members differ where
a member was added, and the users that are noted are those that were created. -/
structure Enrolled (s₀ : State) (before : List PlannedAction) (o : Overlay) (s : State) : Prop where
  kind : ∀ id, o.kind? s₀ id = (s.principals.get? id).map (·.kind)
  member : ∀ {group member}, (group, member) ∉ before.filterMap (·.action.membership?) →
    s.isMember group member = s₀.isMember group member
  user : ∀ {id}, s₀.principals.get? id = none →
    (o.principals.get? id = some .user ↔ before.any (·.action.createsUser id) = true)

namespace Enrolled

variable {s₀ s : State} {before : List PlannedAction} {o : Overlay} {a : Action}

theorem start (s : State) : Enrolled s [] .empty s where
  kind id := Overlay.kind?_empty id
  member _ := rfl
  user _ := by simp [Overlay.empty]

/-- What is asked of the kind of a principal is found the same both ways. -/
theorem look_kindOf_bind (h : Enrolled s₀ before o s) (id : String)
    {f : Option PrincipalKind → Attempt Finding} (hf : ∀ kind, (f kind).look s₀ = (f kind).look s) :
    Attempt.look (o.kindOf id >>= f) s₀ = Attempt.look (Overlay.empty.kindOf id >>= f) s := by
  simp only [Attempt.look_bind, Overlay.look_kindOf, h.kind, Overlay.kind?_empty, Except.bind, hf]

/-- An action that is not misplaced finds the same in the forecast and in the application. -/
theorem look_inspect (h : Enrolled s₀ before o s) (ha : a.isEnrolment = true)
    (hnew : ∀ e ∈ a.membership?, e ∉ before.filterMap (·.action.membership?))
    (hplaced : a.misplaced s₀ before = false) :
    (a.inspect o).look s₀ = (a.inspect .empty).look s := by
  cases a with
  | ensure kind id path =>
    refine h.look_kindOf_bind id fun existing => ?_
    cases existing with
    | none => rfl
    | some existing => dsimp only; split <;> rfl
  | addMember group member =>
    rw [Action.look_inspect_addMember, Action.look_inspect_addMember, h.member (hnew _ rfl),
      Overlay.kind?_empty, Overlay.kind?_empty, ← h.kind, ← h.kind]
    cases hkind : o.kind? s₀ group with
    | none => rfl
    | some kind =>
      cases kind with
      | group => rfl
      | user =>
        -- the user is there in the application, so the forecast must not have planned it
        have hthere : s.principals.contains group = true := by
          rw [Table.contains, ← Option.isSome_map, ← h.kind, hkind]
          rfl
        have hthere₀ : s₀.principals.contains group = true := by
          by_contra hnot
          have hnone : s₀.principals.get? group = none := by simpa [Table.contains] using hnot
          have hnoted : o.principals.get? group = some .user := by
            simpa [Overlay.kind?, hnone] using hkind
          have hcreated := (h.user hnone).1 hnoted
          simp [Action.misplaced, hnot, hcreated] at hplaced
        simp only [hthere, hthere₀]
  | checkPresent id wanted =>
    refine h.look_kindOf_bind id fun kind => ?_
    cases kind with
    | none => rfl
    | some kind =>
      cases wanted with
      | none => rfl
      | some k => dsimp only; split <;> rfl
  | checkAbsent id =>
    refine h.look_kindOf_bind id fun kind => ?_
    cases kind <;> rfl
  | _ => cases ha

/-- A misplaced action fails both ways, and the forecast does not tell the cause. -/
theorem look_inspect_of_misplaced (h : Enrolled s₀ before o s)
    (hnew : ∀ e ∈ a.membership?, e ∉ before.filterMap (·.action.membership?))
    (hmisplaced : a.misplaced s₀ before = true) : ∃ group,
    (a.inspect o).look s₀ = .error (.notFound group) ∧
      (a.inspect .empty).look s = .error (.conflict s!"'{group}' is not a group") := by
  cases a with
  | addMember group member =>
    simp only [Action.misplaced, Bool.and_eq_true, Bool.not_eq_true'] at hmisplaced
    obtain ⟨habsent, hcreated⟩ := hmisplaced
    have hnone : s₀.principals.get? group = none := by simpa [Table.contains] using habsent
    have hkind : o.kind? s₀ group = some .user := by
      rw [Overlay.kind?, hnone]
      exact (h.user hnone).2 hcreated
    have hthere : s.principals.contains group = true := by
      rw [Table.contains, ← Option.isSome_map, ← h.kind, hkind]
      rfl
    have hmember₀ : s₀.isMember group member = false := by simp [State.isMember, hnone]
    have hmember : s.isMember group member = false := (h.member (hnew _ rfl)).trans hmember₀
    refine ⟨group, ?_, ?_⟩
    · simp [Action.look_inspect_addMember, hmember₀, hkind, habsent]
    · rw [Action.look_inspect_addMember, Overlay.kind?_empty, ← h.kind, hkind, hmember, hthere]
      rfl
  | _ => cases hmisplaced

/-! ### One action -/

variable {s' : State} {origin : Origin}

theorem step_ensure (h : Enrolled s₀ before o s) {kind : PrincipalKind} {id : String}
    {path : Option String} (hnext : (Action.ensure kind id path).next? s = some s') :
    ∃ o', (Action.ensure kind id path).foresee? s₀ o = some o' ∧
      Enrolled s₀ (before ++ [⟨.ensure kind id path, origin⟩]) o' s' := by
  rw [Action.next?_ensure] at hnext
  rw [Action.foresee?_ensure, h.kind]
  have hmember : ∀ {s' : State}, (∀ group member, s'.isMember group member =
      s.isMember group member) → ∀ {group member},
      (group, member) ∉ (before ++ [(⟨.ensure kind id path, origin⟩ : PlannedAction)]).filterMap
        (·.action.membership?) → s'.isMember group member = s₀.isMember group member := by
    intro s' hsame group member hnew
    rw [hsame, h.member]
    simpa [Action.membership?] using hnew
  cases hp : s.principals.get? id with
  | some p =>
    simp only [hp, Option.ite_none_right_eq_some, Option.some.injEq] at hnext
    obtain ⟨rfl, rfl⟩ := hnext
    refine ⟨o, if_pos rfl, h.kind, hmember fun _ _ => rfl, fun {id'} hnone => ?_⟩
    rw [h.user hnone, List.any_append]
    -- a user that is found and was not there before has been created before
    have hcreated : p.kind = .user → id = id' → before.any (·.action.createsUser id') = true := by
      rintro hkind rfl
      refine (h.user hnone).1 ?_
      have := h.kind id
      rw [hp, Overlay.kind?, hnone] at this
      simpa [hkind] using this
    cases hkind : p.kind <;> simp_all [Action.createsUser]
  | none =>
    simp only [hp, Option.some.injEq] at hnext
    subst hnext
    have hkind : o.kind? s₀ id = none := by rw [h.kind, hp, Option.map_none]
    have hnone₀ : s₀.principals.get? id = none := by
      cases hp₀ : s₀.principals.get? id with
      | none => rfl
      | some p => simp [Overlay.kind?_of_get? hp₀] at hkind
    refine ⟨_, rfl, fun id' => ?_, hmember fun group member => ?_, fun {id'} hnone => ?_⟩
    · rw [Overlay.kind?_addPrincipal hkind, Table.get?_insert, h.kind]
      split <;> rfl
    · rw [State.isMember, State.isMember, Table.get?_insert]
      split
      · next hid => simp [hid, hp, NameSet.contains, NameSet.empty]
      · rfl
    · rw [Overlay.addPrincipal, Table.get?_insert, List.any_append]
      by_cases hid : id' = id
      · subst hid
        have hfree : ¬ before.any (·.action.createsUser id') = true := by
          rw [← h.user hnone]
          rw [Overlay.kind?, hnone] at hkind
          simp [hkind]
        cases kind <;> simp_all [Action.createsUser]
      · rw [if_neg hid, h.user hnone]
        cases kind <;> simp [Action.createsUser, Ne.symm hid]

/-- Nothing is different after an action that creates nobody and leaves kinds and older members. -/
theorem append (h : Enrolled s₀ before o s) {a : PlannedAction}
    (hcreates : ∀ id, a.action.createsUser id = false)
    (hkind : ∀ id, (s'.principals.get? id).map (·.kind) = (s.principals.get? id).map (·.kind))
    (hmember : ∀ group member, a.action.membership? ≠ some (group, member) →
      s'.isMember group member = s.isMember group member) : Enrolled s₀ (before ++ [a]) o s' where
  kind id := by rw [hkind, h.kind]
  member {group member} hnew := by
    simp only [List.filterMap_append, List.mem_append, not_or] at hnew
    rw [hmember group member fun heq => hnew.2 (by simp [heq]), h.member hnew.1]
  user hnone := by simp [h.user hnone, hcreates]

/-- The verdict on an action that goes through is the same both ways. -/
theorem verdict_eq (h : Enrolled s₀ before o s) (ha : a.isEnrolment = true)
    (hnew : ∀ e ∈ a.membership?, e ∉ before.filterMap (·.action.membership?))
    (hnext : a.next? s = some s') : a.verdict o s₀ = a.verdict .empty s := by
  cases hmisplaced : a.misplaced s₀ before with
  | false => rw [Action.verdict, h.look_inspect ha hnew hmisplaced, Action.verdict]
  | true =>
    obtain ⟨group, -, herror⟩ := h.look_inspect_of_misplaced hnew hmisplaced
    rw [Action.next?_of_failed (by rw [Action.verdict, herror]; rfl)] at hnext
    cases hnext

theorem step_addMember (h : Enrolled s₀ before o s) {group member : String}
    (hnew : (group, member) ∉ before.filterMap (·.action.membership?))
    (hnext : (Action.addMember group member).next? s = some s') :
    ∃ o', (Action.addMember group member).foresee? s₀ o = some o' ∧
      Enrolled s₀ (before ++ [⟨.addMember group member, origin⟩]) o' s' := by
  have hverdict := h.verdict_eq rfl (by simpa [Action.membership?] using hnew) hnext
  obtain ⟨due, hdue, -⟩ := Option.bind_eq_some_iff.1 hnext
  refine ⟨o, Action.foresee?_addMember _ _ _ _ (hverdict.trans hdue), ?_⟩
  rcases Action.next?_addMember _ _ _ hnext with ⟨-, rfl⟩ | ⟨-, g, hg, rfl⟩
  · exact h.append (fun _ => rfl) (fun _ => rfl) fun _ _ _ => rfl
  · refine h.append (fun _ => rfl) (fun id => ?_) fun group' member' hne => ?_
    · rw [Table.get?_insert]
      split
      · next hid => simp [hid, hg]
      · rfl
    · rw [State.isMember, State.isMember, Table.get?_insert]
      split
      · next hgroup =>
        subst hgroup
        have hmember : member' ≠ member := fun heq => hne (by rw [heq]; rfl)
        rw [hg, Option.any_some, Option.any_some, Bool.eq_iff_iff]
        simp [NameSet.contains_iff, hmember]
      · rfl

theorem step_of_check (h : Enrolled s₀ before o s) (ha : a.isEnrolment = true)
    (hcheck : a.mutates = false) (hnext : a.next? s = some s') :
    ∃ o', a.foresee? s₀ o = some o' ∧ Enrolled s₀ (before ++ [⟨a, origin⟩]) o' s' := by
  have hcreates : ∀ id, a.createsUser id = false := by
    intro id
    cases a with
    | ensure => cases hcheck
    | _ => rfl
  have hmembership : a.membership? = none := by
    cases a with
    | addMember => cases hcheck
    | _ => rfl
  have hverdict := h.verdict_eq ha (by simp [hmembership]) hnext
  rcases Action.next?_eq_some hnext with ⟨hsettled, rfl⟩ | ⟨c, x, hdue, -⟩
  · exact ⟨o, Action.foresee?_of_settled (hverdict.trans hsettled),
      h.append hcreates (fun _ => rfl) fun _ _ _ => rfl⟩
  · rw [(Action.of_verdict_due hdue).mutates] at hcheck
    cases hcheck

/-- What is applied is foreseen, and afterwards notes and state still tell the same. -/
theorem step (h : Enrolled s₀ before o s) {a : PlannedAction} (ha : a.action.isEnrolment = true)
    (hnew : ∀ e ∈ a.action.membership?, e ∉ before.filterMap (·.action.membership?))
    (hnext : a.action.next? s = some s') :
    ∃ o', a.action.foresee? s₀ o = some o' ∧ Enrolled s₀ (before ++ [a]) o' s' := by
  obtain ⟨action, origin⟩ := a
  cases action with
  | ensure kind id path => exact h.step_ensure hnext
  | addMember group member => exact h.step_addMember (hnew _ rfl) hnext
  | checkPresent id wanted => exact h.step_of_check ha rfl hnext
  | checkAbsent id => exact h.step_of_check ha rfl hnext
  | _ => cases ha

/-- What is to be done can be done. -/
theorem exists_next? (ha : a.isEnrolment = true) {due : Option Change}
    (hverdict : a.verdict .empty s = some due) : ∃ s', a.next? s = some s' := by
  cases a with
  | ensure kind id path =>
    rw [Action.verdict_ensure, Overlay.kind?_empty] at hverdict
    rw [Action.next?_ensure]
    cases hp : s.principals.get? id with
    | none => exact ⟨_, rfl⟩
    | some p =>
      by_cases hkind : p.kind = kind
      · exact ⟨s, if_pos hkind⟩
      · simp [hp, hkind] at hverdict
  | addMember group member => exact Action.exists_next?_addMember s group member hverdict
  | checkPresent | checkAbsent =>
    cases due with
    | none => exact ⟨s, Action.next?_of_settled hverdict⟩
    | some c => cases Action.of_verdict_due hverdict
  | _ => cases ha

/-- The outcome of an action is of the same kind both ways. The cause of a failure is the same
unless the action is misplaced. -/
theorem outcomes (h : Enrolled s₀ before o s) (ha : a.isEnrolment = true)
    (hnew : ∀ e ∈ a.membership?, e ∉ before.filterMap (·.action.membership?)) (clock : String) :
    let forecast := (Running.on clock (a.attempt .dryRun o) s₀).result.1
    let applied := (Running.on clock (a.attempt .apply .empty) s).result.1
    forecast.kind = applied.kind ∧
      (forecast.failure? = applied.failure? ↔ a.misplaced s₀ before = false) := by
  intro forecast applied
  cases hmisplaced : a.misplaced s₀ before with
  | true =>
    obtain ⟨group, hforecast, happlied⟩ := h.look_inspect_of_misplaced hnew hmisplaced
    have hforecast : forecast = .failed _ := Action.attempt_dryRun_of_error hforecast
    have happlied : applied = .failed _ := Action.attempt_apply_of_error happlied
    simp [hforecast, happlied, Outcome.kind, Outcome.failure?]
  | false =>
    have hlook := h.look_inspect ha hnew hmisplaced
    cases hfound : (a.inspect .empty).look s with
    | error failure =>
      have hforecast : forecast = .failed _ :=
        Action.attempt_dryRun_of_error (hlook.trans hfound)
      have happlied : applied = .failed _ := Action.attempt_apply_of_error hfound
      simp [hforecast, happlied]
    | ok finding =>
      have hverdict : a.verdict .empty s = some finding.change? := by
        rw [Action.verdict, hfound]
        rfl
      obtain ⟨s', hnext⟩ := exists_next? ha hverdict
      obtain ⟨o', hforesee, -⟩ := h.step (a := ⟨a, default⟩) ha hnew hnext
      have hforecast : forecast.isFailed = false := by
        rw [Action.isFailed_attempt_dryRun, hforesee, Option.isNone_some]
      have happlied : applied.isFailed = false := by
        rw [Action.isFailed_attempt_apply, hnext, Option.isNone_some]
      refine ⟨?_, by simp [Outcome.failure?_of_isFailed hforecast,
        Outcome.failure?_of_isFailed happlied]⟩
      rw [Action.kind_attempt_dryRun, Action.kind_attempt_apply, hforesee, hnext,
        h.verdict_eq ha hnew hnext]
      rfl

end Enrolled

/-! ## Plans -/

/-- A plan that only creates principals, adds members, none twice to the same group, and checks who
is there, is foreseen up to the first action that fails when it is applied: every outcome is of the
same kind, and every failure has the same cause, but for members that are added to somebody who is
not there and whom the plan creates as a user. -/
theorem Plan.enrolment_foreseen {plan : Plan}
    (hactions : ∀ a ∈ plan.actions, a.action.isEnrolment = true)
    (honce : (plan.actions.filterMap (·.action.membership?)).Nodup) (s : State) (clock : String) :
    let forecast := (Running.on clock (plan.execute .dryRun) s).result.outcomes
    let applied := (Running.on clock (plan.execute .apply) s).result.outcomes
    ∀ i a, plan.actions[i]? = some a → (∀ o ∈ applied.take i, o.isFailed = false) →
      ∃ f o, forecast[i]? = some f ∧ applied[i]? = some o ∧ f.kind = o.kind ∧
        (f.failure? = o.failure? ↔ a.action.misplaced s (plan.actions.take i) = false) := by
  intro forecast applied i a ha hi
  let I (done : List ReportEntry) (rest : List PlannedAction) (o : Overlay) (s' : State) : Prop :=
    plan.actions = done.map (·.action) ++ rest ∧ Enrolled s (done.map (·.action)) o s'
  have hnew : ∀ {before a rest}, plan.actions = before ++ a :: rest →
      a.action.isEnrolment = true ∧
        ∀ e ∈ a.action.membership?, e ∉ before.filterMap (·.action.membership?) := by
    intro before a rest hsplit
    refine ⟨hactions a (by simp [hsplit]), fun e he hmem => ?_⟩
    rw [hsplit, List.filterMap_append, List.filterMap_cons] at honce
    rw [Option.mem_def.1 he] at honce
    exact (List.nodup_append.1 honce).2.2 e hmem e List.mem_cons_self rfl
  have hstep : ∀ done a rest o s₁ s₂, I done (a :: rest) o s₁ → a.action.next? s₁ = some s₂ →
      ∃ o', a.action.foresee? s o = some o' ∧
        I (done ++ [⟨a, (Running.on clock (a.action.attempt .apply .empty) s₁).result.1⟩])
          rest o' s₂ := by
    intro done a rest o s₁ s₂ h hnext
    obtain ⟨hkind, hfresh⟩ := hnew h.1
    obtain ⟨o', hforesee, h'⟩ := h.2.step hkind hfresh hnext
    exact ⟨o', hforesee, by simp [h.1], by simpa using h'⟩
  have hstart : I [] plan.actions .empty s := ⟨rfl, .start s⟩
  have hside := PlannedAction.entries_side_by_side clock I hstep [] hstart i a ha
  simp only [forecast, applied, on_execute, Report.outcomes, List.getElem?_map, ← List.map_take,
    List.forall_mem_map] at hi ⊢
  obtain ⟨o', s', ⟨hsplit, h⟩, -, hforecast, happlied⟩ := hside hi
  rw [List.nil_append] at hsplit h
  obtain ⟨hkind, hfresh⟩ := hnew hsplit
  obtain ⟨hkinds, hcauses⟩ := h.outcomes hkind hfresh clock
  have hdrop : plan.actions.drop i = a :: plan.actions.drop (i + 1) :=
    List.drop_eq_getElem?_toList_append.trans (by rw [ha]; rfl)
  have htake := List.take_append_drop i plan.actions
  rw [hdrop] at htake
  rw [List.append_cancel_right (hsplit.symm.trans htake.symm)] at hcauses
  rw [hforecast, happlied]
  exact ⟨_, _, rfl, rfl, hkinds, hcauses⟩

/-- A plan that enrols a user and checks it, and creates a group in the user's name at the end. -/
def Plan.staff : Plan where
  script := "main"
  checksum := ""
  sources := []
  actions := [.ensure .group "staff" none, .ensure .user "mia" none, .addMember "staff" "mia",
    .checkPresent "staff" (some .group), .checkAbsent "kim", .ensure .group "mia" none].map
      (⟨·, ⟨"main", 1, 1⟩⟩)

theorem Plan.enrolment_foreseen_staff : (∀ a ∈ staff.actions, a.action.isEnrolment = true) ∧
    (staff.actions.filterMap (·.action.membership?)).Nodup ∧
    ∃ f ∈ (Running.on "" (staff.execute .dryRun) .initial).result.outcomes[5]?,
      f.failure? = some (.conflict "'mia' already exists as a user") := by
  have hactions : ∀ a ∈ staff.actions, a.action.isEnrolment = true := by decide
  have honce : (staff.actions.filterMap (·.action.membership?)).Nodup := by decide
  have hnofail : ∀ o ∈ (Running.on "" (staff.execute .apply) .initial).result.outcomes.take 5,
      o.isFailed = false := by decide +kernel
  have happlied : (Running.on "" (staff.execute .apply) .initial).result.outcomes[5]? =
      some (.failed (.conflict "'mia' already exists as a user")) := by decide +kernel
  obtain ⟨f, o, hf, ho, -, hcause⟩ :=
    enrolment_foreseen hactions honce .initial "" 5 _ rfl hnofail
  refine ⟨hactions, honce, f, hf, (hcause.2 rfl).trans ?_⟩
  rw [happlied] at ho
  cases ho
  rfl

/-- A user whom the plan creates is no group, but for a forecast it is not there. -/
theorem Plan.causes_dryRun_ne_apply : ∃ plan,
    compileText "create user \"u\"; create user \"m\"; add \"m\" to \"u\";" = .ok plan ∧
    (∀ a ∈ plan.actions, a.action.isEnrolment = true) ∧
    (plan.actions.filterMap (·.action.membership?)).Nodup ∧
    (Running.on "" (plan.execute .dryRun) .initial).result.outcomes.map Outcome.failure? =
      [none, none, some (.notFound "u")] ∧
    (Running.on "" (plan.execute .apply) .initial).result.outcomes.map Outcome.failure? =
      [none, none, some (.conflict "'u' is not a group")] :=
  exists_of_compileText (by decide +kernel)

end Entitle
