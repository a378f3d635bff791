import Entitle.Run.Execute

/-!
# What a run asks

A run is a dialogue, and what it asks can be said without regard to the replies. Here it is said of
every part of a run which calls it makes and what its results are like, whatever the repository
replies. A repository that holds a state may refuse a call or not answer it; then the call has no
effect.

## Main definitions

* `Dialogue.Meets`: every request and every result has a property, whatever the replies.
* `Attempt.Meets`: the same of the calls and the results of an attempt.
* `Call.reads`: the calls that only ask what is there.
* `Change.Of`: the changes that an action may come down to.
* `State.Serves`, `Running.Reaches`: runs on a repository that holds a state.

## Main statements

* `Action.meets_inspect`: an inspection only reads, and finds changes of its action.
* `Plan.meets_execute`: a run makes the changes of its actions and only reads otherwise.
* `Running.Reaches.invariant`: what every call of a run preserves, the run preserves.
-/
namespace Entitle

/-! ## Requests and results -/

namespace Dialogue

variable {Op : Type} {Reply : Op → Type} {α β : Type} {P : Op → Prop}

/-- Every request of the program has the property `P` and every result the property `Q`, whatever
the replies are. -/
def Meets (P : Op → Prop) (Q : α → Prop) : Dialogue Op Reply α → Prop
  | done a => Q a
  | ask op next => P op ∧ ∀ reply, (next reply).Meets P Q

@[simp] theorem meets_done {Q : α → Prop} {a : α} :
    (done a : Dialogue Op Reply α).Meets P Q ↔ Q a := Iff.rfl

@[simp] theorem meets_pure {Q : α → Prop} {a : α} :
    (pure a : Dialogue Op Reply α).Meets P Q ↔ Q a := Iff.rfl

theorem meets_request {op : Op} {Q : Reply op → Prop} :
    (request op : Dialogue Op Reply (Reply op)).Meets P Q ↔ P op ∧ ∀ reply, Q reply := Iff.rfl

theorem meets_bind {Q : α → Prop} {R : β → Prop} {p : Dialogue Op Reply α}
    {f : α → Dialogue Op Reply β} (hp : p.Meets P Q) (hf : ∀ a, Q a → (f a).Meets P R) :
    (p >>= f).Meets P R := by
  induction p with
  | done a => exact hf a hp
  | ask op next ih => exact ⟨hp.1, fun reply => ih reply (hp.2 reply)⟩

theorem meets_true (p : Dialogue Op Reply α) : p.Meets (fun _ => True) fun _ => True := by
  induction p with
  | done a => trivial
  | ask op next ih => exact ⟨trivial, ih⟩

theorem Meets.mono {P' : Op → Prop} {Q Q' : α → Prop} {p : Dialogue Op Reply α}
    (hp : p.Meets P Q) (hP : ∀ op, P op → P' op) (hQ : ∀ a, Q a → Q' a) : p.Meets P' Q' := by
  induction p with
  | done a => exact hQ a hp
  | ask op next ih => exact ⟨hP op hp.1, fun reply => ih reply (hp.2 reply)⟩

end Dialogue

namespace Request

/-- A call with the property. -/
def IsCall (P : Call → Prop) : Request → Prop
  | call c => P c
  | cancelled | now => False

/-- A request that is no call, or a call with the property. -/
def Calls (P : Call → Prop) : Request → Prop
  | call c => P c
  | cancelled | now => True

/-- A call with the property, or the question for a cancellation. -/
def Heeds (P : Call → Prop) : Request → Prop
  | call c => P c
  | cancelled => True
  | now => False

theorem IsCall.heeds {P : Call → Prop} {r : Request} (h : r.IsCall P) : r.Heeds P := by
  cases r with
  | call c => exact h
  | cancelled | now => exact h.elim

theorem Heeds.calls {P : Call → Prop} {r : Request} (h : r.Heeds P) : r.Calls P := by
  cases r with
  | call c => exact h
  | cancelled | now => trivial

end Request

/-! ## Attempts -/

namespace Attempt

variable {α β : Type} {P : Call → Prop}

/-- The attempt only makes calls, each with the property `P`, and every result has the property
`Q`. Nothing is said of failures. -/
def Meets (P : Call → Prop) (Q : α → Prop) (x : Attempt α) : Prop :=
  x.run.Meets (Request.IsCall P) fun r => ∀ a, r = .ok a → Q a

theorem meets_pure {Q : α → Prop} {a : α} (h : Q a) : (pure a : Attempt α).Meets P Q := by
  intro b hb
  cases hb
  exact h

theorem meets_throw {Q : α → Prop} (e : Failure) : (throw e : Attempt α).Meets P Q := by
  intro a ha
  cases ha

theorem meets_bind {Q : α → Prop} {R : β → Prop} {x : Attempt α} {f : α → Attempt β}
    (hx : x.Meets P Q) (hf : ∀ a, Q a → (f a).Meets P R) : (x >>= f).Meets P R := by
  refine Dialogue.meets_bind hx fun r hr => ?_
  cases r with
  | ok a => exact hf a (hr a rfl)
  | error e =>
    intro b hb
    cases hb

theorem meets_call {c : Call} (h : P c) : (call c).Meets P fun _ => True :=
  ⟨h, fun reply => by cases reply <;> exact fun _ _ => trivial⟩

theorem meets_adapt {Q : α → Prop} {x : Attempt α} (f : Failure → Failure) (hx : x.Meets P Q) :
    Attempt.Meets P Q (x.adapt f) := by
  refine Dialogue.meets_bind hx fun r hr => ?_
  intro a ha
  cases r with
  | ok b => exact hr a ha
  | error e => cases ha

end Attempt

/-! ## Inspections -/

/-- The calls that only ask what is there. -/
def Call.reads : Call → Bool
  | principal _ | readPermissions _ | descendants _ | nodeExists _ | property .. => true
  | _ => false

theorem Call.not_mutates_of_reads {c : Call} (h : c.reads = true) : c.mutates = false := by
  cases c <;> first | rfl | cases h

namespace Overlay

variable {P : Call → Prop} (hread : ∀ c : Call, c.reads = true → P c) (o : Overlay)
include hread

theorem meets_kindOf (id : String) : (o.kindOf id).Meets P fun _ => True := by
  refine Attempt.meets_bind (Attempt.meets_call (hread _ rfl)) ?_
  rintro (_ | p) -
  · exact Attempt.meets_pure trivial
  · exact Attempt.meets_pure trivial

theorem meets_hasNode (path : String) : (o.hasNode path).Meets P fun _ => True := by
  rw [hasNode]
  split
  · exact Attempt.meets_call (hread _ rfl)
  · exact Attempt.meets_pure trivial

theorem meets_property (path key : String) : (o.property path key).Meets P fun _ => True := by
  rw [property]
  split
  · exact Attempt.meets_adapt _ (Attempt.meets_call (hread _ rfl))
  · exact Attempt.meets_throw _

theorem meets_permissions (path : String) : (o.permissions path).Meets P fun _ => True := by
  rw [permissions]
  split
  · exact Attempt.meets_adapt _ (Attempt.meets_call (hread _ rfl))
  · exact Attempt.meets_throw _

theorem meets_collect (sources : List (String × String)) :
    (o.collect sources).Meets P fun _ => True := by
  induction sources with
  | nil => exact Attempt.meets_pure trivial
  | cons source rest ih =>
    refine Attempt.meets_bind (Attempt.meets_call (hread _ rfl)) fun _ _ => ?_
    exact Attempt.meets_bind ih fun _ _ => Attempt.meets_pure trivial

theorem meets_subtree (root : String) : (o.subtree root).Meets P fun _ => True := by
  rw [subtree]
  split
  · exact Attempt.meets_call (hread _ rfl)
  · exact Attempt.meets_bind (o.meets_collect hread _) fun _ _ => Attempt.meets_pure trivial

theorem meets_revocations (principal : Option String) (keep : List Grant)
    (nodes : List String) : (o.revocations principal keep nodes).Meets P fun _ => True := by
  induction nodes with
  | nil => exact Attempt.meets_pure trivial
  | cons node rest ih =>
    refine Attempt.meets_bind (o.meets_permissions hread node) fun _ _ => ?_
    exact Attempt.meets_bind ih fun _ _ => Attempt.meets_pure trivial

theorem meets_requireParent (path : String) : (o.requireParent path).Meets P fun _ => True := by
  rw [requireParent]
  split
  · exact Attempt.meets_pure trivial
  · refine Attempt.meets_bind (o.meets_hasNode hread _) fun there _ => ?_
    cases there with
    | true => exact Attempt.meets_pure trivial
    | false => exact Attempt.meets_throw _

end Overlay

/-- The changes that an action may come down to. -/
inductive Change.Of : Action → Change → Prop
  | create (kind id path) : Of (.ensure kind id path) (.create kind id path)
  | addMember (group member) : Of (.addMember group member) (.addMember group member)
  | removeMember (group member) : Of (.removeMember group member) (.removeMember group member)
  | grant (path entry) : Of (.setPermission path entry) (.grant path entry)
  | setProperty (path key value) : Of (.setProperty path key value) (.setProperty path key value)
  | copy (source target) : Of (.copy source target) (.copy source target)
  | move (source target) : Of (.move source target) (.move source target)
  | delete (path) : Of (.delete path) (.delete path)
  | revoke (path principal keep batch) : Of (.purge path principal keep) (.revoke path batch)

/-- Only an action that can change something has changes. -/
theorem Change.Of.mutates {a : Action} {c : Change} (h : Change.Of a c) : a.mutates = true := by
  cases h <;> rfl

/-- A finding about an action: if a change is due, it is one of the action. -/
def Finding.About (a : Action) : Finding → Prop
  | settled _ => True
  | due c => Change.Of a c

private theorem PlannedAction.actions_leaveOut (actions : List PlannedAction) :
    (leaveOut actions).map (·.action) = actions := by
  simp [leaveOut, Function.comp_def]

section

variable {P : Call → Prop} (hread : ∀ c : Call, c.reads = true → P c)
include hread

/-- A member that is to join a group has to exist. -/
theorem Overlay.meets_newMember (o : Overlay) (group member : String) :
    Attempt.Meets P (Finding.About (.addMember group member)) (do
      match ← o.kindOf member with
      | some _ => pure (.due (.addMember group member))
      | none => throw (.notFound member)) := by
  refine Attempt.meets_bind (o.meets_kindOf hread member) ?_
  rintro (_ | _) -
  · exact Attempt.meets_throw _
  · exact Attempt.meets_pure (.addMember group member)

/-- An inspection only reads, and the change that it finds is one of its action. -/
theorem Action.meets_inspect (o : Overlay) (a : Action) :
    (a.inspect o).Meets P (Finding.About a) := by
  cases a with
  | ensure kind id path =>
    refine Attempt.meets_bind (o.meets_kindOf hread id) ?_
    rintro (_ | existing) -
    · exact Attempt.meets_pure (.create kind id path)
    · show Attempt.Meets P _ (if existing = kind then _ else _)
      split
      · exact Attempt.meets_pure trivial
      · exact Attempt.meets_throw _
  | addMember group member =>
    have hmember := o.meets_newMember hread group member
    refine Attempt.meets_bind (Attempt.meets_call (hread _ rfl)) ?_
    rintro (_ | g) -
    · show Attempt.Meets P _ (if _ then _ else _)
      split
      · exact Attempt.meets_throw _
      · exact hmember
    · show Attempt.Meets P _ (if _ then _ else _)
      split
      · exact Attempt.meets_pure trivial
      · show Attempt.Meets P _ (if _ then _ else _)
        split
        · exact Attempt.meets_throw _
        · exact hmember
  | removeMember group member =>
    refine Attempt.meets_bind (Attempt.meets_call (hread _ rfl)) ?_
    rintro (_ | g) -
    · exact Attempt.meets_pure trivial
    · show Attempt.Meets P _ (if _ then _ else _)
      split
      · exact Attempt.meets_pure (.removeMember group member)
      · exact Attempt.meets_pure trivial
  | setPermission path entry =>
    refine Attempt.meets_bind (o.meets_permissions hread path) fun acl _ => ?_
    split
    · exact Attempt.meets_pure trivial
    · exact Attempt.meets_pure (.grant path entry)
  | setProperty path key value =>
    refine Attempt.meets_bind (o.meets_property hread path key) fun current _ => ?_
    split
    · exact Attempt.meets_pure trivial
    · exact Attempt.meets_pure (.setProperty path key value)
  | copy source target =>
    refine Attempt.meets_bind (o.meets_hasNode hread target) fun atTarget _ => ?_
    split
    · exact Attempt.meets_pure trivial
    · refine Attempt.meets_bind (o.meets_hasNode hread source) fun atSource _ => ?_
      split
      · exact Attempt.meets_pure (.copy source target)
      · exact Attempt.meets_throw _
  | move source target =>
    refine Attempt.meets_bind (o.meets_hasNode hread source) fun atSource _ => ?_
    refine Attempt.meets_bind (o.meets_hasNode hread target) fun atTarget _ => ?_
    split
    · exact Attempt.meets_pure (.move source target)
    · exact Attempt.meets_pure trivial
    · exact Attempt.meets_throw _
    · exact Attempt.meets_throw _
  | delete path =>
    refine Attempt.meets_bind (o.meets_hasNode hread path) fun there _ => ?_
    split
    · exact Attempt.meets_pure (.delete path)
    · exact Attempt.meets_pure trivial
  | purge path principal keep =>
    refine Attempt.meets_bind (o.meets_subtree hread path) fun nodes _ => ?_
    refine Attempt.meets_bind (o.meets_revocations hread principal keep nodes) fun batch _ => ?_
    split
    · exact Attempt.meets_pure trivial
    · exact Attempt.meets_pure (.revoke path principal keep _)
  | checkPresent id wanted =>
    refine Attempt.meets_bind (o.meets_kindOf hread id) ?_
    rintro (_ | kind) -
    · exact Attempt.meets_throw _
    · cases wanted with
      | none => exact Attempt.meets_pure trivial
      | some k =>
        show Attempt.Meets P _ (if _ then _ else _)
        split
        · exact Attempt.meets_pure trivial
        · exact Attempt.meets_throw _
  | checkAbsent id =>
    refine Attempt.meets_bind (o.meets_kindOf hread id) ?_
    rintro (_ | kind) -
    · exact Attempt.meets_pure trivial
    · exact Attempt.meets_throw _
  | checkPermission path entry =>
    refine Attempt.meets_bind (o.meets_permissions hread path) fun acl _ => ?_
    split
    · exact Attempt.meets_pure trivial
    · exact Attempt.meets_throw _

/-! ## Runs -/

theorem Change.meets_foresee (o : Overlay) (c : Change) :
    (c.foresee o).Meets P fun _ => True := by
  rw [foresee]
  cases c.destination? with
  | none => exact Attempt.meets_pure trivial
  | some target =>
    exact Attempt.meets_bind (o.meets_requireParent hread target) fun _ _ =>
      Attempt.meets_pure trivial

/-- An action that is carried out makes a call of its change at most, and none in a forecast. -/
theorem Action.meets_carryOut {mode : Mode} (o : Overlay) {a : Action}
    (hchange : mode = .apply → ∀ c, Change.Of a c → P c.call) :
    (a.carryOut mode o).Meets P fun _ => True := by
  refine Attempt.meets_bind (a.meets_inspect hread o) fun finding hfinding => ?_
  cases finding with
  | settled reason => exact Attempt.meets_pure trivial
  | due c =>
    cases mode with
    | apply =>
      have hperform : c.perform.Meets P fun _ => True :=
        Attempt.meets_bind (Attempt.meets_call (hchange rfl c hfinding)) fun _ _ =>
          Attempt.meets_pure trivial
      exact Attempt.meets_bind hperform fun _ _ => Attempt.meets_pure trivial
    | dryRun =>
      exact Attempt.meets_bind (c.meets_foresee hread o) fun _ _ => Attempt.meets_pure trivial

theorem Action.meets_attempt {mode : Mode} (o : Overlay) {a : Action}
    (hchange : mode = .apply → ∀ c, Change.Of a c → P c.call) :
    (a.attempt mode o).Meets (Request.IsCall P) fun _ => True := by
  refine Dialogue.meets_bind (Action.meets_carryOut hread o hchange) fun r _ => ?_
  cases r with
  | ok result => trivial
  | error failure => trivial

/-- The calls of a run are the calls of changes of its actions and calls that only read. There is
one entry for each action, in order. -/
theorem PlannedAction.meets_runAll {mode : Mode} (o : Overlay) {actions : List PlannedAction}
    (hchange : mode = .apply → ∀ a ∈ actions, ∀ c, Change.Of a.action c → P c.call) :
    (runAll mode o actions).Meets (Request.Heeds P) fun r => r.1.map (·.action) = actions := by
  induction actions generalizing o with
  | nil => exact rfl
  | cons a rest ih =>
    refine Dialogue.meets_bind (Dialogue.meets_request.2 ⟨trivial, fun _ => trivial⟩) ?_
    intro stopped _
    split
    · exact actions_leaveOut (a :: rest)
    · refine Dialogue.meets_bind ((Action.meets_attempt hread o fun hmode =>
        hchange hmode a List.mem_cons_self).mono (fun _ => Request.IsCall.heeds) fun _ h => h) ?_
      rintro ⟨outcome, o'⟩ -
      have hrest := ih o' fun hmode b hb => hchange hmode b (List.mem_cons_of_mem _ hb)
      show Dialogue.Meets _ _ (if _ then _ else _)
      split
      · exact congrArg (a :: ·) (actions_leaveOut rest)
      · exact Dialogue.meets_bind hrest fun _ hactions => congrArg (a :: ·) hactions

/-- The calls of a whole run. A run reads and changes, and does not commit. -/
theorem Plan.meets_execute_of_reads {plan : Plan} {mode : Mode}
    (hchange : mode = .apply → ∀ a ∈ plan.actions, ∀ c, Change.Of a.action c → P c.call) :
    (plan.execute mode).Meets (Request.Calls P) fun _ => True := by
  refine Dialogue.meets_bind (Dialogue.meets_request.2 ⟨trivial, fun _ => trivial⟩) fun _ _ => ?_
  refine Dialogue.meets_bind ((PlannedAction.meets_runAll hread _ hchange).mono
    (fun _ => Request.Heeds.calls) fun _ _ => trivial) fun _ _ => ?_
  exact Dialogue.meets_bind (Dialogue.meets_request.2 ⟨trivial, fun _ => trivial⟩)
    fun _ _ => trivial

end

theorem Plan.meets_execute {P : Call → Prop} (hread : ∀ c : Call, c.mutates = false → P c)
    {plan : Plan} {mode : Mode}
    (hchange : mode = .apply → ∀ a ∈ plan.actions, ∀ c, Change.Of a.action c → P c.call) :
    (plan.execute mode).Meets (Request.Calls P) fun _ => True :=
  plan.meets_execute_of_reads (fun c hc => hread c (Call.not_mutates_of_reads hc)) hchange

/-! ## Runs on a state -/

/-- What a repository that holds a state may reply to a request, and the state after it. A call
may be refused or not answered at any time, and then has no effect. -/
inductive State.Serves : State → (r : Request) → r.Reply → State → Prop
  | answered {s s' : State} {c : Call} {a : c.Answer} (h : s.answer c = .ok (a, s')) :
    s.Serves (.call c) (.ok a) s'
  | unanswered (s : State) (c : Call) (e : CallError) : s.Serves (.call c) (.error e) s
  | cancelled (s : State) (b : Bool) : s.Serves .cancelled b s
  | now (s : State) (time : String) : s.Serves .now time s

/-- A run that starts with a state reaches another state, where the rest of it is still to be
done. -/
inductive Running.Reaches {α : Type} : State → Running α → State → Running α → Prop
  | refl (s : State) (p : Running α) : Reaches s p s p
  | step {s s' t : State} {r : Request} {next : r.Reply → Running α} {reply : r.Reply}
    {q : Running α} (h : s.Serves r reply s') (hrest : Reaches s' (next reply) t q) :
    Reaches s (.ask r next) t q

/-- What every call of a run preserves, the run preserves. -/
theorem Running.Reaches.invariant {α : Type} {I : State → Prop} {P : Call → Prop}
    {Q : α → Prop} (hstep : ∀ {s s' : State} {c : Call} {a : c.Answer}, P c → I s →
      s.answer c = .ok (a, s') → I s')
    {s t : State} {p q : Running α} (h : Running.Reaches s p t q)
    (hp : p.Meets (Request.Calls P) Q) (hs : I s) : I t := by
  induction h with
  | refl => exact hs
  | step h _ ih =>
    refine ih (hp.2 _) ?_
    cases h with
    | answered h => exact hstep hp.1 hs h
    | unanswered | cancelled | now => exact hs

end Entitle
