import Entitle.Proofs.Forecasts
import Entitle.Proofs.Foresight

/-!
# Rehearsals

A plan that only copies, moves and deletes subtrees is about the nodes alone, and its forecast
rehearses what the tree would become. Up to the first failure it says of every action whether it
will be applied, skipped or fail, as long as no action names a place in the copy of a subtree in
which something had been copied, moved or deleted before. There a forecast is not to be trusted:
what was noted beneath a subtree is lost when the subtree is copied or moved.

## Main definitions

* `Outcome.Kind`, `Outcome.kind`: outcomes without their details.
* `Action.isTransplant`: actions that copy, move or delete a subtree.
* `State.outline`: a state without its principals.

## Main statements

* `Action.kind_attempt_apply`, `Action.kind_attempt_dryRun`: how the verdict decides the outcome.
* `Mirrors.kind_eq`: an action that hangs on no doubt has the same kind of outcome both ways.
* `Plan.kinds_dryRun_eq_apply`: a forecast has the same kinds of outcomes as the application.
* `Plan.kinds_dryRun_ne_apply`: a place in the copy of a subtree where they differ.
-/
namespace Entitle

/-! ## Kinds of outcomes -/

/-- What became of an action, without the details. -/
inductive Outcome.Kind where
  | applied
  | skipped
  | failed
  | notAttempted
  deriving DecidableEq, Repr

/-- The kind of an outcome. -/
def Outcome.kind : Outcome → Outcome.Kind
  | applied _ => .applied
  | skipped _ => .skipped
  | failed _ => .failed
  | notAttempted => .notAttempted

/-- The kind of the outcome that a verdict leads to: a change that is due may go through or not. -/
def Outcome.Kind.ofVerdict : Option (Option Change) → Bool → Outcome.Kind
  | some none, _ => .skipped
  | some (some _), true => .applied
  | some (some _), false | none, _ => .failed

namespace Action

variable (clock : String) (s : State) (o : Overlay) (a : Action)

/-- The kind of the outcome of an action that is applied. -/
theorem kind_attempt_apply :
    (Running.on clock (a.attempt .apply .empty) s).result.1.kind =
      .ofVerdict (a.verdict .empty s) (a.next? s).isSome := by
  obtain ⟨reads, -, hon⟩ := a.on_attempt_apply clock s .empty
  rw [hon, next?, verdict]
  cases (a.inspect .empty).look s with
  | error failure => rfl
  | ok finding =>
    cases finding with
    | settled reason => rfl
    | due c =>
      simp only [Except.toOption, Finding.change?, Option.map_some, Option.bind_some]
      cases s.answer c.call <;> rfl

/-- The kind of the outcome of an action that is forecast. -/
theorem kind_attempt_dryRun :
    (Running.on clock (a.attempt .dryRun o) s).result.1.kind =
      .ofVerdict (a.verdict o s) (a.foresee? s o).isSome := by
  obtain ⟨reads, -, hon⟩ := a.on_attempt_dryRun clock s o
  rw [hon, look_carryOut_dryRun, foresee?, verdict]
  cases (a.inspect o).look s with
  | error failure => rfl
  | ok finding =>
    cases finding with
    | settled reason => rfl
    | due c =>
      simp only [Except.toOption, Finding.change?, Option.map_some, Option.bind_some, Except.bind]
      cases (c.foresee o).look s <;> rfl

end Action

/-! ## Nodes alone -/

/-- Does the action copy, move or delete a subtree? -/
def Action.isTransplant : Action → Bool
  | copy .. | move .. | delete _ => true
  | _ => false

/-- The state without its principals. -/
def State.outline (s : State) : State :=
  { s with principals := .empty }

namespace State

variable (s : State)

theorem membersSound_outline : s.outline.MembersSound where
  user {_ _} hp := by cases hp
  member {_ _ _} hp := by cases hp

private theorem transfer_outline (source target : String) (keepSource : Bool) :
    s.outline.transfer source target keepSource =
      (s.transfer source target keepSource).map outline := by
  have hnode : ∀ p, s.outline.hasNode p = s.hasNode p := fun _ => rfl
  have hmissing : s.outline.missingParent? target = s.missingParent? target := rfl
  rw [transfer, transfer, hnode, hnode, hmissing]
  split
  · rfl
  · split
    · rfl
    · split <;> rfl

private theorem delete_outline (path : String) :
    s.outline.delete path = (s.delete path).map outline := by
  have hsubtree : s.outline.subtree path = s.subtree path := rfl
  rw [delete, delete, hsubtree]
  split
  · rfl
  · split <;> rfl

end State

namespace Action

variable {a : Action} (ha : a.isTransplant = true) (s : State) (o : Overlay)
include ha

theorem verdict_outline : a.verdict o s.outline = a.verdict o s := by
  cases a with
  | copy source target =>
    rw [verdict_copy, verdict_copy]
    rfl
  | move source target =>
    rw [verdict_move, verdict_move]
    rfl
  | delete path =>
    rw [verdict_delete, verdict_delete]
    rfl
  | _ => cases ha

theorem foresee?_outline : a.foresee? s.outline o = a.foresee? s o := by
  have hverdict := verdict_outline ha s o
  cases hsame : a.verdict o s with
  | none => rw [foresee?_of_failed hsame, foresee?_of_failed (hverdict.trans hsame)]
  | some due =>
    cases due with
    | none => rw [foresee?_of_settled hsame, foresee?_of_settled (hverdict.trans hsame)]
    | some c =>
      rw [foresee?_of_due hsame, foresee?_of_due (hverdict.trans hsame)]
      rfl

private theorem next?_outline : a.next? s.outline = (a.next? s).map State.outline := by
  have hdone : ∀ outcome : Except Refusal State,
      (State.done (outcome.map State.outline)).toOption.map (·.2) =
        ((State.done outcome).toOption.map (·.2)).map State.outline := by
    intro outcome
    cases outcome <;> rfl
  rw [next?, next?, verdict_outline ha]
  cases hverdict : a.verdict .empty s with
  | none => rfl
  | some due =>
    cases due with
    | none => rfl
    | some c =>
      simp only [Option.bind_some]
      cases of_verdict_due hverdict with
      | copy source target | move source target =>
        simp only [Change.call, State.answer, State.transfer_outline]
        exact hdone _
      | delete path =>
        simp only [Change.call, State.answer, State.delete_outline]
        exact hdone _
      | _ => cases ha

private theorem spares_outline (d : Doubts) : d.spares s.outline o a = d.spares s o a := by
  cases a with
  | copy | move | delete => rfl
  | _ => cases ha

private theorem after_outline (d : Doubts) : d.after s.outline o a = d.after s o a := by
  cases a with
  | copy | move | delete => rfl
  | _ => cases ha

end Action

/-- Whether a plan can be foreseen depends on the nodes alone. -/
theorem PlannedAction.foreseeable_outline (s : State) (o : Overlay) (d : Doubts)
    {actions : List PlannedAction} (hactions : ∀ a ∈ actions, a.action.isTransplant = true) :
    foreseeable s.outline o d actions = foreseeable s o d actions := by
  induction actions generalizing o d with
  | nil => rfl
  | cons a rest ih =>
    have ha := hactions a List.mem_cons_self
    have hrest := fun o d => ih o d fun b hb => hactions b (List.mem_cons_of_mem _ hb)
    simp only [foreseeable, Action.spares_outline ha, Action.foresee?_outline ha,
      Action.after_outline ha, hrest]

/-! ## Runs -/

namespace Mirrors

variable {s₀ s : State} {o : Overlay} {d : Doubts}

/-- If nothing hangs on a doubt, the verdict on a transplant is the same both ways. -/
theorem verdict_eq (h : Mirrors s₀ o d s) {a : Action} (ha : a.isTransplant = true)
    (hlegal : a.Legal) (hspares : d.spares s₀ o a = true) :
    a.verdict o s₀ = a.verdict .empty s := by
  cases a with
  | copy source target =>
    simp only [Doubts.spares, Bool.and_eq_true, Bool.not_eq_true'] at hspares
    rw [Action.verdict_copy, Action.verdict_copy, Overlay.isSome_node?_empty,
      Overlay.isSome_node?_empty, h.hasNode hlegal.1 hspares.1.1, h.hasNode hlegal.2.1 hspares.1.2]
  | move source target =>
    simp only [Doubts.spares, Bool.and_eq_true, Bool.not_eq_true'] at hspares
    rw [Action.verdict_move, Action.verdict_move, Overlay.isSome_node?_empty,
      Overlay.isSome_node?_empty, h.hasNode hlegal.1 hspares.1.1, h.hasNode hlegal.2.1 hspares.1.2]
  | delete path =>
    simp only [Doubts.spares, Bool.not_eq_true'] at hspares
    rw [Action.verdict_delete, Action.verdict_delete, Overlay.isSome_node?_empty,
      h.hasNode hlegal.1 hspares]
  | _ => cases ha

end Mirrors

/-- An action that hangs on no doubt comes out the same both ways, because both see the same, and
both go through or fail. -/
theorem Mirrors.kind_eq {s₀ s : State} {o : Overlay} {d : Doubts}
    (h : Mirrors s₀.outline o d s.outline) {a : Action} (ha : a.isTransplant = true)
    (hlegal : a.Legal) (hspares : d.spares s₀.outline o a = true) (clock : String) :
    (Running.on clock (a.attempt .dryRun o) s₀).result.1.kind =
      (Running.on clock (a.attempt .apply .empty) s).result.1.kind := by
  have hstep := h.step s₀.membersSound_outline hlegal hspares
  have hverdict := h.verdict_eq ha hlegal hspares
  rw [Action.foresee?_outline ha, Action.next?_outline ha] at hstep
  rw [Action.verdict_outline ha, Action.verdict_outline ha] at hverdict
  rw [Action.kind_attempt_dryRun, Action.kind_attempt_apply, hverdict]
  cases hforesee : a.foresee? s₀ o with
  | none =>
    cases hnext : a.next? s with
    | none => rfl
    | some s' =>
      rw [hforesee, hnext] at hstep
      exact hstep.elim
  | some o' =>
    cases hnext : a.next? s with
    | none =>
      rw [hforesee, hnext] at hstep
      exact hstep.elim
    | some s' => rfl

namespace PlannedAction

/-- A forecast and an application come out the same up to the first action that fails, if the
outlines mirror each other at the start and nothing hangs on a doubt. -/
theorem kinds_eq (clock : String) {s₀ s : State} {o : Overlay} {d : Doubts}
    (h : Mirrors s₀.outline o d s.outline) {actions : List PlannedAction}
    (hactions : ∀ a ∈ actions, a.action.isTransplant = true ∧ a.action.Legal)
    (hforeseeable : foreseeable s₀.outline o d actions = true) :
    let forecast := (Running.on clock (runAll .dryRun o actions) s₀).result.1
    let applied := (Running.on clock (runAll .apply .empty actions) s).result.1
    ∀ i, (∀ e ∈ applied.take i, e.outcome.isFailed = false) →
      (forecast[i]?).map (·.outcome.kind) = (applied[i]?).map (·.outcome.kind) := by
  intro forecast applied i hi
  let I (_ : List ReportEntry) (rest : List PlannedAction) (o : Overlay) (s : State) : Prop :=
    (∀ a ∈ rest, a.action.isTransplant = true ∧ a.action.Legal) ∧
      ∃ d, Mirrors s₀.outline o d s.outline ∧ foreseeable s₀.outline o d rest = true
  have hstep : ∀ done a rest o s s', I done (a :: rest) o s → a.action.next? s = some s' →
      ∃ o', a.action.foresee? s₀ o = some o' ∧
        I (done ++ [⟨a, (Running.on clock (a.action.attempt .apply .empty) s).result.1⟩])
          rest o' s' := by
    rintro done a rest o s s' ⟨hactions, d, h, hforeseeable⟩ hnext
    obtain ⟨ha, hlegal⟩ := hactions a List.mem_cons_self
    rw [foreseeable, Bool.and_eq_true, Action.foresee?_outline ha] at hforeseeable
    obtain ⟨hspares, hrest⟩ := hforeseeable
    have hforetold := h.step s₀.membersSound_outline hlegal hspares
    rw [Action.foresee?_outline ha, Action.next?_outline ha, hnext] at hforetold
    cases hforesee : a.action.foresee? s₀ o with
    | none =>
      rw [hforesee] at hforetold
      exact hforetold.elim
    | some o' =>
      rw [hforesee] at hforetold hrest
      exact ⟨o', rfl, fun b hb => hactions b (List.mem_cons_of_mem _ hb), _, hforetold, hrest⟩
  have hstart : I [] actions o s := ⟨hactions, d, h, hforeseeable⟩
  cases ha : actions[i]? with
  | none =>
    have hlength := List.getElem?_eq_none_iff.1 ha
    rw [List.getElem?_eq_none ((length_runAll_dryRun clock actions o s₀).trans_le hlength),
      List.getElem?_eq_none ((length_runAll_apply clock actions s).trans_le hlength)]
  | some a =>
    obtain ⟨o', s', ⟨hrest, d', h', hforeseeable'⟩, -, hforecast, happlied⟩ :=
      entries_side_by_side clock I hstep [] hstart i a ha hi
    rw [foreseeable, Bool.and_eq_true] at hforeseeable'
    obtain ⟨hkind, hlegal⟩ := hrest a List.mem_cons_self
    rw [hforecast, happlied]
    exact congrArg some (h'.kind_eq hkind hlegal hforeseeable'.1 clock)

end PlannedAction

/-- A forecast of a compiled plan that only copies, moves and deletes has the same kinds of outcomes
as the application, up to the first action that fails when it is applied, if no action hangs on a
doubt until one fails in the forecast. -/
theorem Plan.kinds_dryRun_eq_apply {load : Loader} {limit : Nat} {identifier : String}
    {cache : Cache} {plan : Plan}
    (hplan : (compileScript load limit identifier cache).1 = .ok plan)
    (hactions : ∀ a ∈ plan.actions, a.action.isTransplant = true) {s : State} (hs : s.Tree)
    (hforeseeable : plan.foreseeable s = true) (clock : String) :
    let forecast := (Running.on clock (plan.execute .dryRun) s).result.outcomes
    let applied := (Running.on clock (plan.execute .apply) s).result.outcomes
    ∀ i, (∀ o ∈ applied.take i, o.isFailed = false) →
      (forecast[i]?).map Outcome.kind = (applied[i]?).map Outcome.kind := by
  intro forecast applied i hi
  obtain ⟨script, root, c', e, -, -, he, rfl⟩ := compileScript_eq_ok hplan
  have hsound := Expansion.sound_of_ofChecked he
  have hlegal : ∀ a ∈ (Plan.ofExpansion e).actions, a.action.isTransplant = true ∧
      a.action.Legal := by
    intro a ha
    refine ⟨hactions a ha, ?_⟩
    obtain ⟨d, hd, rfl⟩ := List.mem_map.1 ha
    exact Action.legal_of_problems (hsound d hd)
  have houtline : Mirrors s.outline .empty .none s.outline :=
    .start (hs.of_hasNode_eq fun _ => rfl) s.membersSound_outline
  have hkinds := PlannedAction.kinds_eq clock houtline hlegal
    ((PlannedAction.foreseeable_outline s _ _ hactions).trans hforeseeable) i
  simp only [forecast, applied, on_execute, Report.outcomes, List.getElem?_map, Option.map_map,
    ← List.map_take, List.forall_mem_map] at hi ⊢
  exact hkinds hi

/-- A script that copies a subtree, changes the original and moves the copy on. -/
def rehearsalText : String :=
  "copy \"/a\" to \"/c\"; delete \"/a/b\"; move \"/c\" to \"/d\"; delete \"/c/b\";"

theorem Plan.kinds_dryRun_eq_apply_rehearsal : ∃ plan, compileText rehearsalText = .ok plan ∧
    (∀ a ∈ plan.actions, a.action.isTransplant = true) ∧ State.sample.Tree ∧
    plan.foreseeable .sample = true ∧
    (Running.on "" (plan.execute .dryRun) .sample).result.outcomes.map Outcome.kind =
      [.applied, .applied, .applied, .skipped] ∧
    (Running.on "" (plan.execute .apply) .sample).result.outcomes[3]?.map Outcome.kind =
      some .skipped := by
  have hrun : ∃ plan, compileText rehearsalText = .ok plan ∧
      (∀ a ∈ plan.actions, a.action.isTransplant = true) ∧ plan.foreseeable .sample = true ∧
      (Running.on "" (plan.execute .dryRun) .sample).result.outcomes.map Outcome.kind =
        [.applied, .applied, .applied, .skipped] ∧
      ∀ o ∈ (Running.on "" (plan.execute .apply) .sample).result.outcomes.take 3,
        o.isFailed = false :=
    exists_of_compileText (by decide +kernel)
  obtain ⟨plan, hplan, hactions, hforeseeable, hforecast, hnofail⟩ := hrun
  have htree : State.sample.Tree := by decide +kernel
  refine ⟨plan, hplan, hactions, htree, hforeseeable, hforecast, ?_⟩
  rw [← kinds_dryRun_eq_apply hplan hactions htree hforeseeable "" 3 hnofail, ← List.getElem?_map,
    hforecast]
  rfl

/-- What was deleted beneath a subtree is seen again in a copy of the subtree. -/
theorem Plan.kinds_dryRun_ne_apply : State.sample.WellFormed ∧ ∃ plan,
    compileText "delete \"/a/b\"; copy \"/a\" to \"/c\"; delete \"/c/b\";" = .ok plan ∧
    (∀ a ∈ plan.actions, a.action.isTransplant = true) ∧
    (Running.on "" (plan.execute .dryRun) .sample).result.outcomes.map Outcome.kind =
      [.applied, .applied, .applied] ∧
    (Running.on "" (plan.execute .apply) .sample).result.outcomes.map Outcome.kind =
      [.applied, .applied, .skipped] := by
  refine ⟨?_, exists_of_compileText ?_⟩
  all_goals decide +kernel

end Entitle
