import Entitle.Proofs.Convergence
import Entitle.Proofs.Endings

/-!
# Reports account for changes

The report of an application says exactly what became of the repository, whichever calls are refused
or not answered on the way and whenever the run is cancelled. An action that was applied made one
change, and since an inspection only finds changes that are due, the state is another one
afterwards; every other action leaves the repository as it is.

## Main definitions

* `Outcome.Accounts`: what an outcome says about the calls of its action and the repository.

## Main statements

* `Action.state_ne_of_due`: a change that is due changes the state.
* `PlannedAction.through_runAll_append`: an application goes on where its beginning ended.
* `Plan.execute_accounts`: the entries of a report account for all changes.
-/
namespace Entitle

/-- A change that an inspection finds to be due changes the state. -/
theorem Action.state_ne_of_due {a : Action} {s s' : State} {c : Change}
    (hverdict : a.verdict .empty s = some (some c)) {x : c.call.Answer}
    (hanswer : s.answer c.call = .ok (x, s')) : s' ≠ s := by
  rintro rfl
  by_cases hmove : ∀ source target, a ≠ .move source target
  · have hsettled := settled_of_due hmove hverdict hanswer
    rw [hverdict] at hsettled
    cases hsettled
  · -- what is moved is at the target afterwards, where there was nothing
    simp only [ne_eq, not_forall, not_not] at hmove
    obtain ⟨source, target, rfl⟩ := hmove
    cases of_verdict_due hverdict
    have hbefore := (State.transfer_eq_ok (State.done_eq_ok hanswer)).2.1
    rw [State.hasNode_target (State.done_eq_ok hanswer)] at hbefore
    cases hbefore

/-! ## One action -/

/-- What an outcome says about the calls that were made for an action and about the repository
before and after them. -/
def Outcome.Accounts (outcome : Outcome) (own : List Exchange) (r r' : Repository) : Prop :=
  if outcome.isApplied then own.countP (·.isChange) = 1 ∧ r'.state ≠ r.state
  else own.countP (·.isChange) = 0 ∧ r' = r

/-- Every ending of an action is accounted for by its outcome. -/
theorem Action.Ends.accounts {a : Action} {r r' : Repository} {outcome : Outcome}
    {es : List Exchange} (h : a.Ends r outcome es r') : outcome.Accounts es r r' := by
  have hnone : ∀ {es : List Exchange}, (∀ e ∈ es, e.isChange = false) →
      es.countP (·.isChange) = 0 := fun hes =>
    List.countP_eq_zero.2 fun e he => by simp [hes e he]
  cases h with
  | failed failure hes => exact ⟨hnone hes, rfl⟩
  | skipped reason hes _ => exact ⟨hnone hes, rfl⟩
  | @applied c reads hreads hverdict x s hanswer =>
    refine ⟨?_, Action.state_ne_of_due hverdict hanswer⟩
    rw [List.countP_append, hnone hreads]
    simp [Exchange.isChange, Except.isOk, Except.toBool]

/-! ## All actions -/

section

variable {σ : Type}

namespace PlannedAction

variable {w : World σ} {view : σ → Repository}

/-- The last action of a run is accounted for by its outcome. -/
theorem accounts_runAll_concat (hw : w.Serves view) (before : List PlannedAction)
    (a : PlannedAction) (x : σ) :
    let p := (runAll .apply .empty before).through w x
    let q := (runAll .apply .empty (before ++ [a])).through w x
    ∃ outcome own, q.result.1 = p.result.1 ++ [⟨a, outcome⟩] ∧ q.exchanges = p.exchanges ++ own ∧
      outcome.Accounts own (view p.world) (view q.world) := by
  intro p q
  have hq : q = _ := through_runAll_append w before [a] x
  rw [hq]
  split
  · exact ⟨.notAttempted, [], rfl, (List.append_nil _).symm, rfl, rfl⟩
  · -- the action comes after the others: it is left out because of a cancellation, or attempted
    have hsame := hw.view_cancelled p.world
    rw [through_runAll_apply_cons]
    by_cases hcancelled : (w .cancelled p.world).1 = true
    · rw [if_pos hcancelled]
      exact ⟨.notAttempted, [], rfl, by simp [p], rfl, hsame⟩
    · rw [if_neg hcancelled]
      have hends := (hw.ends_attempt a.action (w .cancelled p.world).2).accounts
      rw [hsame] at hends
      split
      · exact ⟨_, _, rfl, by simp [p], hends⟩
      · exact ⟨_, _, rfl, by simp [p], hends⟩

/-- A run makes one successful change for each action that was applied. -/
theorem countP_isChange_runAll (hw : w.Serves view) (actions : List PlannedAction) (x : σ) :
    ((runAll .apply .empty actions).through w x).exchanges.countP (·.isChange) =
      ((runAll .apply .empty actions).through w x).result.1.countP (·.outcome.isApplied) := by
  induction actions using List.reverseRecOn with
  | nil => rfl
  | append_singleton before a ih =>
    obtain ⟨outcome, own, hentries, hexchanges, haccounts⟩ := accounts_runAll_concat hw before a x
    have hown : own.countP (·.isChange) = if outcome.isApplied then 1 else 0 := by
      rw [Outcome.Accounts] at haccounts
      split at haccounts
      · next happlied => rw [haccounts.1, if_pos happlied]
      · next happlied => rw [haccounts.1, if_neg happlied]
    rw [hentries, hexchanges, List.countP_append, List.countP_append, ih, hown,
      List.countP_singleton]

end PlannedAction

/-- The report of an application accounts for what was done, one entry after the other. What the run
did up to an action is what the run of the actions up to there does. For an action that was applied
there was exactly one successful change, and the state is another one afterwards; any other action
left the repository as it was. So as many changes were counted as actions were applied. -/
theorem Plan.execute_accounts {w : World σ} {view : σ → Repository} (hw : w.Serves view)
    (plan : Plan) (x : σ) :
    let upTo := fun k => ((plan.take k).execute .apply).through w x
    let full := (plan.execute .apply).through w x
    ((upTo 0).result.entries = [] ∧ (upTo 0).exchanges = [] ∧ view (upTo 0).world = view x) ∧
      upTo plan.actions.length = full ∧
      (∀ k, (upTo k).result.entries <+: full.result.entries ∧
        (upTo k).exchanges <+: full.exchanges) ∧
      (∀ k a, plan.actions[k]? = some a → ∃ outcome own,
        (upTo (k + 1)).result.entries = (upTo k).result.entries ++ [⟨a, outcome⟩] ∧
        (upTo (k + 1)).exchanges = (upTo k).exchanges ++ own ∧
        outcome.Accounts own (view (upTo k).world) (view (upTo (k + 1)).world)) ∧
      (view full.world).mutations =
        (view x).mutations + full.result.outcomes.countP (·.isApplied) := by
  intro upTo full
  have hview : ∀ y, view (w .now y).2 = view y := hw.view_now
  refine ⟨⟨?_, ?_, ?_⟩, ?_, fun k => ?_, fun k a ha => ?_, ?_⟩
  · simp [upTo, through_execute, take]
  · simp [upTo, through_execute, take]
  · simp [upTo, through_execute, take, hview]
  · simp only [upTo, take, List.take_length, full]
  · have happend := PlannedAction.through_runAll_append w (plan.actions.take k)
      (plan.actions.drop k) (w .now x).2
    rw [List.take_append_drop] at happend
    simp only [upTo, full, through_execute, take, happend, Transcript.exchanges_clocked]
    split
    · exact ⟨List.prefix_append _ _, List.prefix_rfl⟩
    · rw [Answered.exchanges_append]
      exact ⟨List.prefix_append _ _, List.prefix_append _ _⟩
  · obtain ⟨outcome, own, hentries, hexchanges, haccounts⟩ :=
      PlannedAction.accounts_runAll_concat hw (plan.actions.take k) a (w .now x).2
    have htake : plan.actions.take (k + 1) = plan.actions.take k ++ [a] := by
      rw [List.take_add_one, ha, Option.toList_some]
    refine ⟨outcome, own, ?_, ?_, ?_⟩
    · simp only [upTo, through_execute, take, htake, hentries]
    · simp only [upTo, through_execute, take, htake, Transcript.exchanges_clocked]
      exact hexchanges
    · simp only [upTo, through_execute, take, htake, hview]
      exact haccounts
  · have hcount := PlannedAction.countP_isChange_runAll hw plan.actions (w .now x).2
    rw [hw.mutations_through]
    simp only [full, through_execute, Report.outcomes, List.countP_map,
      Transcript.exchanges_clocked, Transcript.exchanges_log, hcount]
    rfl

end

/-- A repository with two nodes beneath the root that does not answer when something is revoked. -/
def Bench.stalling : Bench where
  repository := ⟨.sample, 0, none⟩
  cancelled := false
  limitMs := 1000
  faults := [⟨"revoke_permissions", none, 0, .stall⟩]
  calls := []

/-- The purge is not answered: what was copied before is the only change. -/
theorem Plan.execute_accounts_stalling :
    (Bench.world Host.bare).Serves Bench.repository ∧
    ((sample.execute .apply).through (Bench.world Host.bare) .stalling).result.outcomes =
      [.applied "copied '/a' to '/c'", .failed (.timeout 1000), .notAttempted] ∧
    ((sample.execute .apply).through (Bench.world Host.bare) .stalling).world.repository.mutations
      = 1 := by
  have hserves := Bench.serves_world Host.bare
  have houtcomes :
      ((sample.execute .apply).through (Bench.world Host.bare) .stalling).result.outcomes =
        [.applied "copied '/a' to '/c'", .failed (.timeout 1000), .notAttempted] := by
    decide +kernel
  obtain ⟨-, -, -, -, hmutations⟩ := execute_accounts hserves sample Bench.stalling
  refine ⟨hserves, houtcomes, hmutations.trans ?_⟩
  rw [houtcomes]
  rfl

end Entitle
