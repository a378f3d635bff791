import Entitle.Proofs.Inspecting

/-!
# Runs, action by action

What an undisturbed run of a plan comes down to, action by action: an application goes from state
to state, a forecast from overlay to overlay, and either succeeds if none of its actions fails.

## Main definitions

* `Action.next?`: the state after an action is applied, unless it fails.
* `Action.foresee?`: the overlay after an action is forecast, unless it fails.

## Main statements

* `PlannedAction.on_runAll_append`: an application goes on where its beginning ended.
* `Plan.status_apply_iff`, `Plan.status_dryRun_iff`: a run succeeds if one action after the other
  does.
-/
namespace Entitle

/-! ## Attempts that begin with reading -/

/-- An attempt that reads first goes on, in the same state, with what it sees. -/
theorem Attempt.on_bind_of_reads {α β : Type} (clock : String) {x : Attempt α} {Q : α → Prop}
    (hx : x.Meets (fun c => c.mutates = false) Q) (f : α → Attempt β) (s : State) :
    ∃ reads : List (Answered Request Request.Reply),
      (∀ e ∈ Answered.exchanges reads, e.call.mutates = false) ∧
      Running.on clock (x >>= f).run s =
        (match x.look s with
          | .ok a => Running.on clock (f a).run s
          | .error e => ⟨.error e, [], s⟩ : Passage State (Except Failure β)).behind reads := by
  obtain ⟨hresult, hstate, hcalls⟩ := Running.on_of_reads clock hx s
  refine ⟨_, List.forall_mem_map.1 hcalls, (Attempt.through_bind _ x f s).trans ?_⟩
  cases hlook : x.look s <;> simp only [hresult.trans hlook, hstate]

namespace Action

variable (clock : String) (s : State) (o : Overlay) (a : Action)

/-- The passage of an action that is applied: reading, and then one call at most. -/
theorem on_attempt_apply : ∃ reads : List (Answered Request Request.Reply),
    (∀ e ∈ Answered.exchanges reads, e.call.mutates = false) ∧
    Running.on clock (a.attempt .apply o) s =
      (match (a.inspect o).look s with
        | .error failure => ⟨(.failed failure, o), [], s⟩
        | .ok (.settled reason) => ⟨(.skipped reason, o), [], s⟩
        | .ok (.due c) =>
          match s.answer c.call with
          | .ok (x, s') => ⟨(.applied c.done, o), [⟨.call c.call, .ok x⟩], s'⟩
          | .error e => ⟨(.failed e.failure, o), [⟨.call c.call, .error (.refused e)⟩], s⟩ :
        Passage State (Outcome × Overlay)).behind reads := by
  obtain ⟨reads, hreads, hon⟩ :=
    Attempt.on_bind_of_reads clock (a.meets_inspect (fun _ => Call.not_mutates_of_reads) o)
      (Finding.settle o) s
  refine ⟨reads, hreads, (Action.through_attempt _ .apply o a s).trans ?_⟩
  simp only [carryOut_apply, hon]
  cases (a.inspect o).look s with
  | error failure => rfl
  | ok finding =>
    cases finding with
    | settled reason => rfl
    | due c =>
      simp only [Finding.through_settle_due, State.world, State.reply]
      cases s.answer c.call with
      | error e => rfl
      | ok r => rfl

/-- The passage of an action that is forecast: it only reads. -/
theorem on_attempt_dryRun : ∃ reads : List (Answered Request Request.Reply),
    (∀ e ∈ Answered.exchanges reads, e.call.mutates = false) ∧
    Running.on clock (a.attempt .dryRun o) s =
      ⟨match (a.carryOut .dryRun o).look s with
        | .ok result => result
        | .error failure => (.failed failure, o), reads, s⟩ := by
  have hmeets : (a.carryOut .dryRun o).Meets (fun c => c.mutates = false) fun _ => True :=
    Action.meets_carryOut (fun _ => Call.not_mutates_of_reads) o fun hmode => by cases hmode
  obtain ⟨hresult, hstate, hcalls⟩ := Running.on_of_reads clock hmeets s
  refine ⟨_, List.forall_mem_map.1 hcalls, (Action.through_attempt _ .dryRun o a s).trans ?_⟩
  cases hlook : (a.carryOut .dryRun o).look s <;> simp only [hresult.trans hlook, hstate]

/-! ## From one action to the next -/

/-- The state after the action is applied, unless it fails. -/
def next? : Option State :=
  (a.verdict .empty s).bind fun due =>
    match due with
    | none => some s
    | some c => (s.answer c.call).toOption.map (·.2)

/-- The overlay after the action is forecast, unless it fails. -/
def foresee? : Option Overlay :=
  (a.verdict o s).bind fun due =>
    match due with
    | none => some o
    | some c => ((c.foresee o).look s).toOption

section

variable {s s' : State} {o : Overlay} {a : Action} {c : Change}

/-- The state after an action is the one before it, or the one after the change that was due. -/
theorem next?_eq_some (h : a.next? s = some s') :
    (a.verdict .empty s = some none ∧ s' = s) ∨
      ∃ c x, a.verdict .empty s = some (some c) ∧ s.answer c.call = .ok (x, s') := by
  obtain ⟨due, hverdict, h⟩ := Option.bind_eq_some_iff.1 h
  cases due with
  | none => exact .inl ⟨hverdict, (Option.some.inj h).symm⟩
  | some c =>
    simp only at h
    cases hanswer : s.answer c.call with
    | error e => simp [hanswer, Except.toOption] at h
    | ok r =>
      obtain ⟨x, t⟩ := r
      rw [hanswer] at h
      cases h
      exact .inr ⟨c, x, hverdict, hanswer⟩

theorem next?_of_failed (h : a.verdict .empty s = none) : a.next? s = none := by
  rw [next?, h, Option.bind_none]

theorem next?_of_settled (h : a.verdict .empty s = some none) : a.next? s = some s := by
  rw [next?, h, Option.bind_some]

theorem next?_of_due (h : a.verdict .empty s = some (some c)) {x : c.call.Answer}
    (hanswer : s.answer c.call = .ok (x, s')) : a.next? s = some s' := by
  rw [next?, h, Option.bind_some]
  simp only [hanswer, Except.toOption, Option.map_some]

theorem next?_of_refused (h : a.verdict .empty s = some (some c)) {e : Refusal}
    (hanswer : s.answer c.call = .error e) : a.next? s = none := by
  rw [next?, h, Option.bind_some]
  simp only [hanswer, Except.toOption, Option.map_none]

theorem foresee?_of_failed (h : a.verdict o s = none) : a.foresee? s o = none := by
  rw [foresee?, h, Option.bind_none]

theorem foresee?_of_settled (h : a.verdict o s = some none) : a.foresee? s o = some o := by
  rw [foresee?, h, Option.bind_some]

/-- A due change is noted, if the parent of its destination is seen. -/
theorem foresee?_of_due (h : a.verdict o s = some (some c)) :
    a.foresee? s o = match c.destination?.bind Path.parent? with
      | none => some (c.note o)
      | some up => if (o.node? s up).isSome then some (c.note o) else none := by
  have hparent : ∀ path, (o.requireParent path).look s = match Path.parent? path with
      | none => .ok ()
      | some up => if (o.node? s up).isSome then .ok () else .error (.notFound up) := by
    intro path
    rw [Overlay.requireParent]
    cases Path.parent? path with
    | none => rfl
    | some up =>
      simp only [Attempt.look_bind, Overlay.look_hasNode, Except.bind]
      split <;> rfl
  rw [foresee?, h, Option.bind_some]
  simp only [Change.foresee]
  cases c.destination? with
  | none => rfl
  | some target =>
    simp only [Attempt.look_bind, hparent, Option.bind_some]
    cases Path.parent? target with
    | none => rfl
    | some up =>
      by_cases hup : (o.node? s up).isSome = true
      · simp only [if_pos hup]
        rfl
      · simp only [if_neg hup]
        rfl

/-- An action whose changes are not noted leaves the overlay as it is, unless it fails. -/
theorem foresee?_of_unnoted {due : Option Change} (h : a.verdict o s = some due)
    (hnote : ∀ c, Change.Of a c → c.destination? = none ∧ c.note o = o) :
    a.foresee? s o = some o := by
  cases due with
  | none => exact foresee?_of_settled h
  | some c =>
    obtain ⟨hdestination, hsame⟩ := hnote c (of_verdict_due h)
    rw [foresee?_of_due h, hdestination, hsame]
    rfl

theorem foresee?_of_parent (h : a.verdict o s = some (some c)) {target : String}
    (htarget : c.destination? = some target)
    (hparent : ∀ up, Path.parent? target = some up → (o.node? s up).isSome = true) :
    a.foresee? s o = some (c.note o) := by
  rw [foresee?_of_due h, htarget, Option.bind_some]
  cases hup : Path.parent? target with
  | none => rfl
  | some up => simp only [hparent up hup, if_true]

theorem foresee?_of_missing_parent (h : a.verdict o s = some (some c)) {target up : String}
    (htarget : c.destination? = some target) (hup : Path.parent? target = some up)
    (hnone : o.node? s up = none) : a.foresee? s o = none := by
  rw [foresee?_of_due h, htarget, Option.bind_some, hup]
  simp only [hnone, Option.isSome_none, Bool.false_eq_true, if_false]

end

/-- An action that is applied fails if there is no next state. -/
theorem isFailed_attempt_apply :
    (Running.on clock (a.attempt .apply .empty) s).result.1.isFailed = (a.next? s).isNone := by
  obtain ⟨reads, -, hon⟩ := a.on_attempt_apply clock s .empty
  rw [hon, next?, verdict]
  cases (a.inspect .empty).look s with
  | error failure => rfl
  | ok finding =>
    cases finding with
    | settled reason => rfl
    | due c =>
      simp only [Except.toOption, Finding.change?, Option.map_some, Option.bind_some]
      cases s.answer c.call <;> rfl

theorem state_attempt_apply {s' : State} (h : a.next? s = some s') :
    (Running.on clock (a.attempt .apply .empty) s).state = s' := by
  obtain ⟨reads, -, hon⟩ := a.on_attempt_apply clock s .empty
  rw [next?, verdict] at h
  rw [hon]
  cases hlook : (a.inspect .empty).look s with
  | error failure => simp [hlook, Except.toOption] at h
  | ok finding =>
    cases finding with
    | settled reason => simpa [hlook, Except.toOption, Finding.change?] using h
    | due c =>
      simp only [hlook, Except.toOption, Finding.change?, Option.map_some, Option.bind_some] at h
      cases hanswer : s.answer c.call with
      | error e => simp [hanswer] at h
      | ok r => simpa [hanswer] using h

/-- An action with nothing to do is skipped, and only reads. -/
theorem attempt_apply_of_settled (h : a.verdict .empty s = some none) :
    (Running.on clock (a.attempt .apply .empty) s).result.1.isSkipped = true ∧
      (Running.on clock (a.attempt .apply .empty) s).state = s ∧
      ∀ c ∈ (Running.on clock (a.attempt .apply .empty) s).calls, c.mutates = false := by
  obtain ⟨reads, hreads, hon⟩ := a.on_attempt_apply clock s .empty
  rw [verdict] at h
  rw [hon]
  cases hlook : (a.inspect .empty).look s with
  | error failure => simp [hlook, Except.toOption] at h
  | ok finding =>
    cases finding with
    | settled reason => exact ⟨rfl, rfl, by simpa using hreads⟩
    | due c => simp [hlook, Except.toOption, Finding.change?] at h

theorem look_carryOut_dryRun :
    (a.carryOut .dryRun o).look s =
      ((a.inspect o).look s).bind fun finding =>
        match finding with
        | .settled reason => .ok (.skipped reason, o)
        | .due c => ((c.foresee o).look s).map fun o' => (.applied c.forecast, o') := by
  rw [carryOut]
  rw [Attempt.look_bind]
  cases (a.inspect o).look s with
  | error failure => rfl
  | ok finding =>
    cases finding with
    | settled reason => rfl
    | due c =>
      refine (Attempt.look_bind (c.foresee o) _ s).trans ?_
      simp only [Except.bind]
      cases (c.foresee o).look s <;> rfl

/-- An action that is forecast fails if there is no next overlay. -/
theorem isFailed_attempt_dryRun :
    (Running.on clock (a.attempt .dryRun o) s).result.1.isFailed = (a.foresee? s o).isNone := by
  obtain ⟨reads, -, hon⟩ := a.on_attempt_dryRun clock s o
  rw [hon, look_carryOut_dryRun, foresee?, verdict]
  cases (a.inspect o).look s with
  | error failure => rfl
  | ok finding =>
    cases finding with
    | settled reason => rfl
    | due c =>
      simp only [Except.toOption, Finding.change?, Option.map_some, Option.bind_some, Except.bind]
      cases (c.foresee o).look s <;> rfl

theorem overlay_attempt_dryRun {o' : Overlay} (h : a.foresee? s o = some o') :
    (Running.on clock (a.attempt .dryRun o) s).result.2 = o' := by
  obtain ⟨reads, -, hon⟩ := a.on_attempt_dryRun clock s o
  rw [foresee?, verdict] at h
  rw [hon, look_carryOut_dryRun]
  cases hlook : (a.inspect o).look s with
  | error failure => simp [hlook, Except.toOption] at h
  | ok finding =>
    cases finding with
    | settled reason => simpa [hlook, Except.toOption, Finding.change?, Except.bind] using h
    | due c =>
      simp only [hlook, Except.toOption, Finding.change?, Option.map_some, Option.bind_some] at h
      simp only [Except.bind]
      cases hforesee : (c.foresee o).look s with
      | error e => simp [hforesee] at h
      | ok r => simpa [hforesee, Except.map] using h

private theorem state_attempt_dryRun :
    (Running.on clock (a.attempt .dryRun o) s).state = s := by
  obtain ⟨reads, -, hon⟩ := a.on_attempt_dryRun clock s o
  rw [hon]

end Action

/-! ## Runs -/

theorem Outcome.isFailed_eq_false {outcome : Outcome}
    (h : (outcome.isApplied || outcome.isSkipped) = true) : outcome.isFailed = false := by
  cases outcome with
  | failed failure => cases h
  | _ => rfl

namespace PlannedAction

/-- The state after all actions are applied, unless one fails. -/
def applyAll? (s : State) (actions : List PlannedAction) : Option State :=
  actions.foldlM (fun s a => a.action.next? s) s

/-- The overlay after all actions are forecast, unless one fails. -/
def foreseeAll? (s : State) (o : Overlay) (actions : List PlannedAction) : Option Overlay :=
  actions.foldlM (fun o a => a.action.foresee? s o) o

variable (clock : String)

/-- The passage of an application, from the first action to the others. -/
theorem on_runAll_apply_cons (a : PlannedAction) (rest : List PlannedAction) (s : State) :
    let first := Running.on clock (a.action.attempt .apply .empty) s
    let more := Running.on clock (runAll .apply .empty rest) first.state
    Running.on clock (runAll .apply .empty (a :: rest)) s =
      if first.result.1.isFailed then
        ⟨(⟨a, first.result.1⟩ :: leaveOut rest, false), ⟨.cancelled, false⟩ :: first.log,
          first.state⟩
      else ⟨(⟨a, first.result.1⟩ :: more.result.1, more.result.2),
        ⟨.cancelled, false⟩ :: (first.log ++ more.log), more.state⟩ :=
  through_runAll_apply_cons (State.world clock) a rest s

/-- There is one entry for each action. -/
theorem length_runAll_apply (actions : List PlannedAction) (s : State) :
    (Running.on clock (runAll .apply .empty actions) s).result.1.length = actions.length := by
  induction actions generalizing s with
  | nil => rfl
  | cons a rest ih =>
    rw [on_runAll_apply_cons]
    split <;> simp [ih]

/-- Actions that have nothing to do are skipped, and only read. -/
theorem runAll_apply_of_settled (actions : List PlannedAction) (s : State)
    (h : ∀ a ∈ actions, a.action.verdict .empty s = some none) :
    let passage := Running.on clock (runAll .apply .empty actions) s
    (∀ e ∈ passage.result.1, e.outcome.isSkipped = true) ∧ passage.state = s ∧
      ∀ c ∈ passage.calls, c.mutates = false := by
  induction actions with
  | nil => simp [Running.on]
  | cons a rest ih =>
    obtain ⟨hskipped, hstate, hcalls⟩ :=
      a.action.attempt_apply_of_settled clock s (h a List.mem_cons_self)
    obtain ⟨hskipped', hstate', hcalls'⟩ := ih fun b hb => h b (List.mem_cons_of_mem _ hb)
    have hfailed := Outcome.isFailed_eq_false (Bool.or_eq_true_iff.2 (.inr hskipped))
    simp only [on_runAll_apply_cons, hfailed, Bool.false_eq_true, if_false, hstate]
    refine ⟨List.forall_mem_cons.2 ⟨hskipped, hskipped'⟩, hstate', fun c hc => ?_⟩
    rw [Transcript.calls_mk, Answered.exchanges_cancelled, Answered.exchanges_append,
      List.map_append] at hc
    exact (List.mem_append.1 hc).elim (hcalls c) (hcalls' c)

/-- An application is not cancelled. If no action fails it leaves the state after the last one. -/
theorem runAll_apply_spec (actions : List PlannedAction) (s : State) :
    let passage := Running.on clock (runAll .apply .empty actions) s
    passage.result.2 = false ∧
      match applyAll? s actions with
      | some t => (∀ e ∈ passage.result.1, e.outcome.isFailed = false) ∧ passage.state = t
      | none => ∃ e ∈ passage.result.1, e.outcome.isFailed = true := by
  induction actions generalizing s with
  | nil => exact ⟨rfl, by simp [Running.on], rfl⟩
  | cons a rest ih =>
    simp only [on_runAll_apply_cons]
    have hfailed := a.action.isFailed_attempt_apply clock s
    cases hnext : a.action.next? s with
    | none =>
      rw [hnext, Option.isNone_none] at hfailed
      rw [if_pos hfailed, applyAll?, List.foldlM_cons, hnext]
      exact ⟨rfl, _, List.mem_cons_self, hfailed⟩
    | some s' =>
      rw [hnext, Option.isNone_some] at hfailed
      have hstate := a.action.state_attempt_apply clock s hnext
      rw [if_neg (by simp [hfailed]), hstate, applyAll?, List.foldlM_cons, hnext]
      obtain ⟨hcancelled, hrest⟩ := ih s'
      refine ⟨hcancelled, ?_⟩
      show match applyAll? s' rest with | some t => _ | none => _
      cases hall : applyAll? s' rest with
      | none =>
        rw [hall] at hrest
        obtain ⟨e, he, hefailed⟩ := hrest
        exact ⟨e, List.mem_cons_of_mem _ he, hefailed⟩
      | some t =>
        rw [hall] at hrest
        refine ⟨fun e he => ?_, hrest.2⟩
        rcases List.mem_cons.1 he with rfl | he
        · exact hfailed
        · exact hrest.1 e he

/-- An application whose beginning does not fail goes on where its beginning ended. -/
theorem on_runAll_append (before rest : List PlannedAction) (s : State)
    (h : ∀ e ∈ (Running.on clock (runAll .apply .empty before) s).result.1,
      e.outcome.isFailed = false) :
    let first := Running.on clock (runAll .apply .empty before) s
    let more := Running.on clock (runAll .apply .empty rest) first.state
    Running.on clock (runAll .apply .empty (before ++ rest)) s =
      ⟨(first.result.1 ++ more.result.1, more.result.2), first.log ++ more.log, more.state⟩ := by
  intro first more
  have hgoesOn : ¬ (first.result.2 || first.result.1.any (·.outcome.isFailed)) = true := by
    have hfailed : first.result.1.any (·.outcome.isFailed) = false := by
      simpa using h
    rw [(runAll_apply_spec clock before s).1, hfailed]
    simp
  exact (through_runAll_append (State.world clock) before rest s).trans (if_neg hgoesOn)

/-- The passage of a forecast, from the first action to the others. -/
theorem on_runAll_dryRun_cons (a : PlannedAction) (rest : List PlannedAction) (o : Overlay)
    (s : State) :
    let first := Running.on clock (a.action.attempt .dryRun o) s
    let more := Running.on clock (runAll .dryRun first.result.2 rest) s
    Running.on clock (runAll .dryRun o (a :: rest)) s =
      ⟨(⟨a, first.result.1⟩ :: more.result.1, more.result.2),
        ⟨.cancelled, false⟩ :: (first.log ++ more.log), more.state⟩ := by
  intro first more
  have hstate : (Running.on clock (a.action.attempt .dryRun o) s).world = s :=
    a.action.state_attempt_dryRun clock s o
  have hmode : (Mode.dryRun == Mode.apply) = false := rfl
  refine (through_runAll_cons (State.world clock) .dryRun o a rest s).trans ?_
  simp only [State.world, hmode, Bool.and_false, Bool.false_eq_true, if_false, hstate]
  rfl

theorem length_runAll_dryRun (actions : List PlannedAction) (o : Overlay) (s : State) :
    (Running.on clock (runAll .dryRun o actions) s).result.1.length = actions.length := by
  induction actions generalizing o with
  | nil => rfl
  | cons a rest ih => rw [on_runAll_dryRun_cons, List.length_cons, ih, List.length_cons]

/-- A forecast is not cancelled and leaves the state as it is. -/
theorem runAll_dryRun_spec (actions : List PlannedAction) (o : Overlay) (s : State) :
    let passage := Running.on clock (runAll .dryRun o actions) s
    passage.result.2 = false ∧ passage.state = s ∧
      ((∀ e ∈ passage.result.1, e.outcome.isFailed = false) ↔
        (foreseeAll? s o actions).isSome = true) := by
  induction actions generalizing o with
  | nil => exact ⟨rfl, rfl, by simp [Running.on, foreseeAll?]⟩
  | cons a rest ih =>
    simp only [on_runAll_dryRun_cons]
    have hfailed := a.action.isFailed_attempt_dryRun clock s o
    obtain ⟨hcancelled, hstate, hrest⟩ :=
      ih (Running.on clock (a.action.attempt .dryRun o) s).result.2
    refine ⟨hcancelled, hstate, ?_⟩
    rw [foreseeAll?, List.foldlM_cons]
    cases hnext : a.action.foresee? s o with
    | none =>
      rw [hnext, Option.isNone_none] at hfailed
      simp [hfailed]
    | some o' =>
      rw [hnext, Option.isNone_some] at hfailed
      rw [a.action.overlay_attempt_dryRun clock s o hnext] at hrest ⊢
      show _ ↔ (foreseeAll? s o' rest).isSome = true
      rw [← hrest]
      simp [hfailed]

end PlannedAction

/-! ## Reports -/

/-- A run succeeds if it is not cancelled and no action fails. -/
theorem Report.status_eq_success_iff (r : Report) :
    r.status = .success ↔
      r.cancelled = false ∧ ∀ e ∈ r.entries, e.outcome.isFailed = false := by
  have hany : r.outcomes.any (·.isFailed) = false ↔
      ∀ e ∈ r.entries, e.outcome.isFailed = false := by
    simp [outcomes]
  rw [status, Status.ofOutcomes]
  cases hfailed : r.outcomes.any (·.isFailed) with
  | true =>
    have hnot : ¬ ∀ e ∈ r.entries, e.outcome.isFailed = false := by
      rw [← hany, hfailed]
      simp
    simp only [if_true, hnot, and_false, iff_false]
    split <;> simp
  | false =>
    cases r.cancelled with
    | true => simp
    | false => simpa using hany.1 hfailed

namespace Plan

variable (clock : String)

/-- The passage of a run of a plan is that of its actions, with a report. -/
theorem on_execute (plan : Plan) (mode : Mode) (s : State) :
    let passage := Running.on clock (PlannedAction.runAll mode .empty plan.actions) s
    Running.on clock (plan.execute mode) s =
      ⟨⟨plan.script, plan.checksum, mode, passage.result.2, clock, clock, passage.result.1⟩,
        ⟨.now, clock⟩ :: (passage.log ++ [⟨.now, clock⟩]), passage.state⟩ :=
  through_execute (State.world clock) plan mode s

/-- The passage of a plan of one action is that of the action. -/
theorem on_execute_single {plan : Plan} {a : PlannedAction} (hplan : plan.actions = [a])
    (s : State) :
    let attempt := Running.on clock (a.action.attempt .apply .empty) s
    let passage := Running.on clock (plan.execute .apply) s
    passage.result.outcomes = [attempt.result.1] ∧ passage.state = attempt.state ∧
      passage.calls = attempt.calls := by
  intro attempt passage
  simp only [passage, on_execute, hplan, Report.outcomes, PlannedAction.on_runAll_apply_cons]
  by_cases hfailed : attempt.result.1.isFailed = true
  · simp [attempt, hfailed, PlannedAction.leaveOut]
  · simp [attempt, hfailed, Running.on]

theorem status_apply_iff (plan : Plan) (s : State) :
    (Running.on clock (plan.execute .apply) s).result.status = .success ↔
      (PlannedAction.applyAll? s plan.actions).isSome = true := by
  obtain ⟨hcancelled, hspec⟩ := PlannedAction.runAll_apply_spec clock plan.actions s
  rw [on_execute, Report.status_eq_success_iff]
  cases hall : PlannedAction.applyAll? s plan.actions with
  | none =>
    rw [hall] at hspec
    obtain ⟨e, he, hfailed⟩ := hspec
    refine iff_of_false (fun h => ?_) (by simp)
    have := h.2 e he
    rw [hfailed] at this
    cases this
  | some t =>
    rw [hall] at hspec
    exact iff_of_true ⟨hcancelled, hspec.1⟩ rfl

theorem status_dryRun_iff (plan : Plan) (s : State) :
    (Running.on clock (plan.execute .dryRun) s).result.status = .success ↔
      (PlannedAction.foreseeAll? s .empty plan.actions).isSome = true := by
  obtain ⟨hcancelled, -, hspec⟩ := PlannedAction.runAll_dryRun_spec clock plan.actions .empty s
  rw [on_execute, Report.status_eq_success_iff, ← hspec]
  exact and_iff_right hcancelled

end Plan

end Entitle
