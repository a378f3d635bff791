import Entitle.Proofs.Stepwise
import Entitle.Proofs.WellFormed
import Entitle.Proofs.Worlds

/-!
# Forecasts

A forecast only reads. Whatever the repository replies to it, and whenever it is cancelled, the
repository is afterwards what it was before. An application of the same actions changes the
repository step by step, and what a forecast has to keep up with is said here once for every
relation between the notes of the one and the state of the other.

## Main statements

* `World.Serves.view_through`: a program that only reads leaves the repository as it is.
* `Plan.forecasts_only_read`: any number of forecasts only read and change nothing.
* `PlannedAction.entries_side_by_side`: a relation that every step keeps holds where an action is
  forecast and applied.
-/
namespace Entitle

/-! ## Reading in any world -/

/-- A request that changes nothing leaves the repository as it is, whatever the reply. -/
theorem Repository.Serves.eq_of_not_mutates {r r' : Repository} {q : Request} {reply : q.Reply}
    (h : r.Serves q reply r') (hq : q.Calls fun c => c.mutates = false) : r' = r := by
  cases h with
  | answered h =>
    obtain ⟨s, hanswer, rfl⟩ := answerNow_eq_ok h
    rw [State.answer_of_not_mutates hq hanswer, after_of_not_mutates hq]
  | unanswered | cancelled | now => rfl

/-- A program that only reads leaves the repository as it is. -/
theorem World.Serves.view_through {σ α : Type} {w : World σ} {view : σ → Repository}
    (hw : w.Serves view) {Q : α → Prop} {p : Running α}
    (hp : p.Meets (Request.Calls fun c => c.mutates = false) Q) (x : σ) :
    view (p.through w x).world = view x := by
  induction p generalizing x with
  | done a => rfl
  | ask r next ih =>
    exact (ih (w r x).1 (hp.2 _) (w r x).2).trans ((hw r x).eq_of_not_mutates hp.1)

/-- What every part of a sequence asks, the sequence asks. -/
theorem Dialogue.meets_mapM {Op : Type} {Reply : Op → Type} {α β : Type} {P : Op → Prop}
    {f : α → Dialogue Op Reply β} {xs : List α} (h : ∀ x ∈ xs, (f x).Meets P fun _ => True) :
    (xs.mapM f).Meets P fun _ => True := by
  induction xs with
  | nil => trivial
  | cons x rest ih =>
    rw [List.mapM_cons]
    refine meets_bind (h x List.mem_cons_self) fun _ _ => ?_
    exact meets_bind (ih fun y hy => h y (List.mem_cons_of_mem _ hy)) fun _ _ => trivial

/-- A forecast only makes calls that read. -/
theorem Plan.meets_execute_dryRun (plan : Plan) :
    (plan.execute .dryRun).Meets (Request.Calls fun c => c.reads = true) fun _ => True :=
  plan.meets_execute_of_reads (fun _ hc => hc) fun hmode => by cases hmode

/-- Forecasts only make calls that ask what is there, whatever they are replied and whenever they
are cancelled. Any number of them leaves a repository, its state and its number of changes, as it
is. -/
theorem Plan.forecasts_only_read {σ : Type} (w : World σ) (plans : List Plan) (x : σ) :
    let passage := Running.through w (plans.mapM fun plan => plan.execute .dryRun) x
    (∀ e ∈ passage.exchanges, e.call.reads = true) ∧
      ∀ view, w.Serves view → view passage.world = view x := by
  intro passage
  have hmeets : (plans.mapM fun plan => plan.execute .dryRun : Running (List Report)).Meets
      (Request.Calls fun c => c.reads = true) fun _ => True :=
    Dialogue.meets_mapM fun plan _ => plan.meets_execute_dryRun
  refine ⟨(Running.through_of_meets w hmeets x).2, fun view hw => ?_⟩
  refine hw.view_through (hmeets.mono (fun r hr => ?_) fun _ h => h) x
  cases r with
  | call c => exact Call.not_mutates_of_reads hr
  | cancelled | now => trivial

/-- A repository that does not list permissions in time, with a user who gives up while the first
action of the second run is inspected. -/
def Bench.sluggish : Bench where
  repository := ⟨.sample, 3, none⟩
  cancelled := false
  limitMs := 1000
  faults := [⟨"read_permissions", none, 0, .stall⟩, ⟨"node_exists", none, 4, .cancel⟩]
  calls := []

theorem Plan.forecasts_only_read_sluggish :
    (Bench.world Host.bare).Serves Bench.repository ∧
    let passage := Running.through (Bench.world Host.bare)
      ([sample, sample].mapM fun plan => plan.execute .dryRun) .sluggish
    passage.result.map Report.outcomes =
      [[.applied "would copy '/a' to '/c'", .failed (.timeout 1000),
          .applied "would delete '/a'"],
        [.applied "would copy '/a' to '/c'", .notAttempted, .notAttempted]] ∧
      passage.exchanges.length = 10 ∧ passage.world.repository = Bench.sluggish.repository := by
  have hserves := Bench.serves_world Host.bare
  refine ⟨hserves, by decide +kernel, by decide +kernel, ?_⟩
  exact (forecasts_only_read (Bench.world Host.bare) [sample, sample] .sluggish).2
    Bench.repository hserves

/-! ## A forecast beside an application -/

/-- Let there be a relation between the entries of the actions that were applied, the actions to
come, the notes of a forecast and the state of an application. If every action that is applied
without failure is also forecast without failure and the relation goes on, then it holds wherever an
action is reached, and there both runs have an entry for the action. -/
theorem PlannedAction.entries_side_by_side (clock : String) {s₀ : State}
    (I : List ReportEntry → List PlannedAction → Overlay → State → Prop)
    (hstep : ∀ done a rest o s s', I done (a :: rest) o s → a.action.next? s = some s' →
      ∃ o', a.action.foresee? s₀ o = some o' ∧
        I (done ++ [⟨a, (Running.on clock (a.action.attempt .apply .empty) s).result.1⟩])
          rest o' s')
    (done : List ReportEntry) {actions : List PlannedAction} {o : Overlay} {s : State}
    (h : I done actions o s) :
    let forecast := (Running.on clock (runAll .dryRun o actions) s₀).result.1
    let applied := (Running.on clock (runAll .apply .empty actions) s).result.1
    ∀ i a, actions[i]? = some a → (∀ e ∈ applied.take i, e.outcome.isFailed = false) →
      ∃ o' s', I (done ++ applied.take i) (a :: actions.drop (i + 1)) o' s' ∧
        applyAll? s (actions.take i) = some s' ∧
        forecast[i]? = some ⟨a, (Running.on clock (a.action.attempt .dryRun o') s₀).result.1⟩ ∧
        applied[i]? =
          some ⟨a, (Running.on clock (a.action.attempt .apply .empty) s').result.1⟩ := by
  induction actions generalizing done o s with
  | nil => simp
  | cons b rest ih =>
    have hfailed := b.action.isFailed_attempt_apply clock s
    intro forecast applied i a ha hi
    simp only [forecast, applied, on_runAll_dryRun_cons, on_runAll_apply_cons] at hi ⊢
    cases i with
    | zero =>
      obtain rfl : b = a := by simpa using ha
      refine ⟨o, s, by simpa using h, rfl, rfl, ?_⟩
      split <;> rfl
    | succ i =>
      cases hnext : b.action.next? s with
      | none =>
        -- the first action failed, so the others were not reached
        rw [hnext, Option.isNone_none] at hfailed
        rw [if_pos hfailed] at hi
        have := hi _ List.mem_cons_self
        rw [hfailed] at this
        cases this
      | some s' =>
        obtain ⟨o', hforesee, hrest⟩ := hstep _ _ _ _ _ _ h hnext
        rw [hnext, Option.isNone_some] at hfailed
        simp only [hfailed, Bool.false_eq_true, if_false] at hi ⊢
        rw [b.action.overlay_attempt_dryRun clock s₀ o hforesee,
          b.action.state_attempt_apply clock s hnext] at *
        obtain ⟨o'', s'', hI, hall, hentries⟩ :=
          ih _ hrest i a ha fun e he => hi e (List.mem_cons_of_mem _ he)
        rw [List.append_assoc, List.singleton_append] at hI
        refine ⟨o'', s'', hI, ?_, hentries⟩
        rw [List.take_succ_cons, applyAll?, List.foldlM_cons, hnext]
        exact hall

end Entitle
