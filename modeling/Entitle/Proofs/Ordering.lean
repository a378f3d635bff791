import Entitle.Proofs.Recordings

/-!
# The order of a recorded run

Whatever the repository and the history reply, a recorded run first looks up what is on record, then
runs its plan, then commits an application, and keeps the record last. Where it ends depends on
what it is told: a run that ends before its plan has only looked up, and a run whose changes could
not be made durable leaves no record. Because the record comes last, nothing hangs on it.

## Main definitions

* `Plan.approach`: a recorded run up to its record.
* `RunOutcome.account`: what a run came to, whatever became of its record.
* `RunWorld.keeping`: the same world with another history in it.
* `Orderly`: what the requests of a recorded run are, by its result.

## Main statements

* `Plan.launch_eq`: a recorded run keeps the record after everything else.
* `orderly_launch`: the requests of every recorded run are in order.
-/
namespace Entitle

open Dialogue

/-! ## Up to the record -/

namespace Plan

/-- Run a plan and commit the changes of an application. With the report comes the record that is
to be kept. -/
def runToRecord (plan : Plan) (mode : Mode) (options : RunOptions) (repeated : Bool) :
    Recording (Except RunError (Report × Record ⊕ Record)) := do
  let report ← (plan.execute mode).recording
  let committed ← match mode with
    | .dryRun => pure (.ok ())
    | .apply => commitChanges
  match committed with
  | .error refusal => pure (.error (.commit refusal))
  | .ok () =>
    let recordedAt ← request (RunRequest.step .now)
    pure (.ok (.inl (report,
      report.toRecord options.principal (options.rerun || repeated) recordedAt)))

/-- A run that no record makes superfluous, up to its own record. -/
def proceed (plan : Plan) (mode : Mode) (options : RunOptions) :
    Recording (Except RunError (Report × Record ⊕ Record)) := do
  match ← (History.latest plan.script plan.checksum mode).recording with
  | .error e => pure (.error (.history e))
  | .ok found => plan.runToRecord mode options found.isSome

/-- A recorded run up to the record that is to be kept. The run ends before it if it fails or finds
a record that makes it superfluous. -/
def approach (plan : Plan) (mode : Mode) (options : RunOptions) :
    Recording (Except RunError (Report × Record ⊕ Record)) := do
  match ← plan.previous? mode options with
  | .error e => pure (.error (.history e))
  | .ok (some previous) => pure (.ok (.inr previous))
  | .ok none => plan.proceed mode options

/-- Keep the record of a run, if there is one to keep. -/
def conclude : Except RunError (Report × Record ⊕ Record) → Recording (Except RunError RunOutcome)
  | .error e => pure (.error e)
  | .ok (.inr previous) => pure (.ok (.unchanged previous))
  | .ok (.inl (report, record)) => do
    let audit ← (History.record record).recording
    pure (.ok (.executed report audit))

private theorem runAndRecord_eq (plan : Plan) (mode : Mode) (options : RunOptions)
    (repeated : Bool) :
    plan.runAndRecord mode options repeated =
      plan.runToRecord mode options repeated >>= conclude := by
  simp only [runAndRecord, runToRecord, bind_assoc]
  congr 1
  funext report
  cases mode with
  | dryRun => rfl
  | apply =>
    refine Eq.trans ?_ (bind_assoc _ _ _).symm
    refine congrArg (commitChanges >>= ·) (funext fun committed => ?_)
    cases committed with
    | error refusal => rfl
    | ok _ => rfl

/-- A recorded run keeps the record after everything else. -/
theorem launch_eq (plan : Plan) (mode : Mode) (options : RunOptions) :
    plan.launch mode options = plan.approach mode options >>= conclude := by
  simp only [launch, approach, bind_assoc]
  congr 1
  funext found
  cases found with
  | error e => rfl
  | ok previous =>
    cases previous with
    | some previous => rfl
    | none =>
      refine Eq.trans ?_ (bind_assoc _ _ _).symm
      refine congrArg ((History.latest plan.script plan.checksum mode).recording >>= ·)
        (funext fun found => ?_)
      cases found with
      | error e => rfl
      | ok found => exact plan.runAndRecord_eq mode options found.isSome

end Plan

/-! ## What a run asks for -/

/-- A request of a run that does not commit. -/
def RunRequest.IsExecution : RunRequest → Prop :=
  IsStep (Request.Calls (· ≠ .commit))

/-- The requests between the last action and the record: an application is committed. -/
def Mode.committed : Mode → List (Answered RunRequest RunReply)
  | dryRun => []
  | apply => [⟨.step (.call .commit), .ok ()⟩]

/-- The requests before the record are in order, by what is to be recorded. -/
def Approaching (mode : Mode) (log : List (Answered RunRequest RunReply)) :
    Except RunError (Report × Record ⊕ Record) → Prop
  | .error (.commit _) => True
  | .ok (.inl _) => ∃ lookups execution recordedAt,
      log = lookups ++ execution ++ mode.committed ++ [⟨.step .now, recordedAt⟩] ∧
        (∀ e ∈ lookups, e.op.IsLookup) ∧ ∀ e ∈ execution, e.op.IsExecution
  | _ => ∀ e ∈ log, e.op.IsLookup

/-- The requests of a recorded run are in order, by what became of it.

* A run that was not to be done, or could not be, has only looked up.
* A run whose changes could not be made durable left no record.
* A run that was done looked up, ran its plan, committed an application successfully, and then
  kept one record, each in its turn. -/
def Orderly (mode : Mode) (log : List (Answered RunRequest RunReply)) :
    Except RunError RunOutcome → Prop
  | .error (.commit _) => ∀ e ∈ log, ¬ e.op.IsRecord
  | .ok (.executed _ audit) => ∃ lookups execution recordedAt record,
      log = lookups ++ execution ++ mode.committed ++
        [⟨.step .now, recordedAt⟩, ⟨.history (.record record), audit⟩] ∧
        (∀ e ∈ lookups, e.op.IsLookup) ∧ ∀ e ∈ execution, e.op.IsExecution
  | _ => ∀ e ∈ log, e.op.IsLookup

/-- Look-ups may come first. -/
theorem Approaching.after_lookups {mode : Mode} {first log : List (Answered RunRequest RunReply)}
    {result : Except RunError (Report × Record ⊕ Record)} (hfirst : ∀ e ∈ first, e.op.IsLookup)
    (h : Approaching mode log result) : Approaching mode (first ++ log) result := by
  unfold Approaching at h ⊢
  split at h
  · trivial
  · obtain ⟨lookups, execution, recordedAt, rfl, hlookups, hexecution⟩ := h
    refine ⟨first ++ lookups, execution, recordedAt, by simp, ?_, hexecution⟩
    exact List.forall_mem_append.2 ⟨hfirst, hlookups⟩
  · exact List.forall_mem_append.2 ⟨hfirst, h⟩

private theorem Approaching.after_lookup {mode : Mode} {e : Answered RunRequest RunReply}
    {log : List (Answered RunRequest RunReply)}
    {result : Except RunError (Report × Record ⊕ Record)} (he : e.op.IsLookup)
    (h : Approaching mode log result) : Approaching mode (e :: log) result :=
  Approaching.after_lookups (List.forall_mem_singleton.2 he) h

/-! ## Runs in order -/

section

variable {σ : Type} (w : RunWorld σ)

/-- Changes are made durable with one request, and its reply decides. -/
theorem transcript_commitChanges (x : σ) :
    let run := commitChanges.transcript w x
    (∃ reply, run.log = [⟨.step (.call .commit), reply⟩]) ∧
      (run.result = .ok () → run.log = [⟨.step (.call .commit), .ok ()⟩]) := by
  simp only [commitChanges]
  rw [transcript_request_bind]
  rcases (w (.step (.call .commit)) x).1 with (refusal | afterMs) | done
  · exact ⟨⟨_, rfl⟩, fun h => by cases h⟩
  · exact ⟨⟨_, rfl⟩, fun h => by cases h⟩
  · exact ⟨⟨_, rfl⟩, fun _ => rfl⟩

theorem Plan.meets_execution (plan : Plan) (mode : Mode) :
    (plan.execute mode).recording.Meets RunRequest.IsExecution fun _ => True := by
  refine Running.meets_recording (plan.meets_execute_of_reads (fun c hc => ?_) ?_)
  · rintro rfl
    cases hc
  · rintro - a - c -
    cases c <;> simp [Change.call]

private theorem Plan.approaching_runToRecord (plan : Plan) (mode : Mode) (options : RunOptions)
    (repeated : Bool) (x : σ) :
    let run := (plan.runToRecord mode options repeated).transcript w x
    Approaching mode run.log run.result := by
  have hexecution := (transcript_of_meets w (plan.meets_execution mode) x).2
  simp only [runToRecord]
  rw [transcript_bind]
  generalize (plan.execute mode).recording.transcript w x = execution at hexecution ⊢
  cases mode with
  | dryRun =>
    refine ⟨[], execution.log, (w (.step .now) execution.world).1, ?_, by simp, hexecution⟩
    simp [Mode.committed, transcript_request_bind]
  | apply =>
    have hcommit := transcript_commitChanges w execution.world
    simp only
    rw [transcript_bind]
    generalize commitChanges.transcript w execution.world = commit at hcommit ⊢
    obtain ⟨⟨reply, hlog⟩, hok⟩ := hcommit
    cases hresult : commit.result with
    | error refusal => trivial
    | ok _ =>
      refine ⟨[], execution.log, (w (.step .now) commit.world).1, ?_, by simp, hexecution⟩
      simp [Mode.committed, transcript_request_bind, hok hresult]

theorem Plan.meets_previous? (plan : Plan) (mode : Mode) (options : RunOptions) :
    (plan.previous? mode options).Meets RunRequest.IsLookup fun _ => True := by
  rw [previous?]
  split
  · exact ⟨trivial, fun _ => trivial⟩
  · trivial

private theorem Plan.approaching_proceed (plan : Plan) (mode : Mode) (options : RunOptions)
    (x : σ) :
    let run := (plan.proceed mode options).transcript w x
    Approaching mode run.log run.result := by
  simp only [proceed]
  rw [History.recording_latest, transcript_request_bind]
  refine Approaching.after_lookup (by simp [RunRequest.IsLookup]) ?_
  split
  · simp [Approaching]
  · exact plan.approaching_runToRecord w mode options _ _

/-- The requests of a recorded run up to its record are in order. -/
theorem Plan.approaching_approach (plan : Plan) (mode : Mode) (options : RunOptions) (x : σ) :
    let run := (plan.approach mode options).transcript w x
    Approaching mode run.log run.result := by
  have hprevious := plan.meets_previous? mode options
  simp only [approach]
  rw [transcript_bind]
  have hlookups := (transcript_of_meets w hprevious x).2
  generalize (plan.previous? mode options).transcript w x = found at hlookups ⊢
  refine Approaching.after_lookups hlookups ?_
  rcases found.result with e | (_ | previous)
  · simp [Approaching]
  · exact plan.approaching_proceed w mode options found.world
  · simp [Approaching]

/-- A request that comes before the record. A forecast commits nothing. -/
def RunRequest.Precedes (mode : Mode) (r : RunRequest) : Prop :=
  ¬ r.IsRecord ∧ (mode = .dryRun → r ≠ .step (.call .commit))

theorem RunRequest.IsLookup.precedes {r : RunRequest} (h : r.IsLookup) (mode : Mode) :
    r.Precedes mode := by
  refine ⟨h.not_isRecord, fun _ => ?_⟩
  rintro rfl
  exact h

theorem RunRequest.IsExecution.precedes {r : RunRequest} (h : r.IsExecution) (mode : Mode) :
    r.Precedes mode := by
  refine ⟨h.not_isRecord, fun _ => ?_⟩
  rintro rfl
  exact h rfl

theorem meets_commitChanges :
    commitChanges.Meets (RunRequest.Precedes .apply) fun _ => True := by
  refine meets_bind (meets_request.2 ⟨⟨id, fun h => by cases h⟩, fun _ => trivial⟩) ?_
  rintro ((refusal | afterMs) | done) - <;> trivial

theorem Plan.meets_runToRecord (plan : Plan) (mode : Mode) (options : RunOptions)
    (repeated : Bool) :
    (plan.runToRecord mode options repeated).Meets (RunRequest.Precedes mode) fun _ => True := by
  have hexecution := (plan.meets_execution mode).mono (fun _ h => h.precedes mode) fun _ h => h
  refine meets_bind hexecution fun report _ => ?_
  cases mode with
  | dryRun => exact ⟨⟨id, fun _ => by simp⟩, fun _ => trivial⟩
  | apply =>
    refine meets_bind meets_commitChanges fun committed _ => ?_
    cases committed with
    | error refusal => trivial
    | ok _ => exact ⟨⟨id, fun _ => by simp⟩, fun _ => trivial⟩

theorem Plan.meets_proceed (plan : Plan) (mode : Mode) (options : RunOptions) :
    (plan.proceed mode options).Meets (RunRequest.Precedes mode) fun _ => True := by
  have hlookup : RunRequest.IsLookup (.history (.latest plan.script plan.checksum mode)) := trivial
  refine ⟨hlookup.precedes mode, fun reply => ?_⟩
  cases reply with
  | error e => trivial
  | ok found => exact plan.meets_runToRecord mode options found.isSome

/-- Nothing is recorded before the end, and a forecast commits nothing. -/
theorem Plan.meets_approach (plan : Plan) (mode : Mode) (options : RunOptions) :
    (plan.approach mode options).Meets (RunRequest.Precedes mode) fun _ => True := by
  have hprevious := (plan.meets_previous? mode options).mono (fun _ h => h.precedes mode)
    fun _ h => h
  refine meets_bind hprevious fun found _ => ?_
  rcases found with e | (_ | previous)
  · trivial
  · exact plan.meets_proceed mode options
  · trivial

/-! ## The record -/

/-- What a run came to, whatever became of its record: its report, or the record that made it
superfluous. -/
def RunOutcome.account : RunOutcome → Report ⊕ Record
  | executed report _ => .inl report
  | unchanged previous => .inr previous

/-- The same world with a history that keeps records in another way. -/
def RunWorld.keeping (w : RunWorld σ) (keep : Record → StateM σ (Except StoreError Record)) :
    RunWorld σ
  | .history (.record r) => keep r
  | r => w r

private theorem RunWorld.keeping_of_not_isRecord (w : RunWorld σ)
    (keep : Record → StateM σ (Except StoreError Record)) {r : RunRequest} (h : ¬ r.IsRecord) :
    w.keeping keep r = w r := by
  cases r with
  | step => rfl
  | history r =>
    cases r with
    | record => exact absurd trivial h
    | latest | list => rfl

/-- What a recorded run comes to is known before its record is kept. -/
theorem Plan.account_launch (plan : Plan) (mode : Mode) (options : RunOptions) (x : σ) :
    ((plan.launch mode options).transcript w x).result.map RunOutcome.account =
      ((plan.approach mode options).transcript w x).result.map (Sum.map Prod.fst id) := by
  rw [plan.launch_eq, transcript_bind]
  generalize (plan.approach mode options).transcript w x = approach
  rcases approach.result with e | (⟨report, record⟩ | previous) <;> rfl

/-- The record comes last. -/
theorem orderly_conclude {mode : Mode} {log : List (Answered RunRequest RunReply)}
    {result : Except RunError (Report × Record ⊕ Record)} (happroach : Approaching mode log result)
    (hlog : ∀ e ∈ log, e.op.Precedes mode) (x : σ) :
    let run := (Plan.conclude result).transcript w x
    Orderly mode (log ++ run.log) run.result := by
  rcases result with (e | e | e) | (⟨report, record⟩ | previous)
  · simpa [Plan.conclude, Orderly, Approaching] using happroach
  · simpa [Plan.conclude, Orderly, Approaching] using happroach
  · simpa [Plan.conclude, Orderly] using fun e he => (hlog e he).1
  · obtain ⟨lookups, execution, recordedAt, rfl, hlookups, hexecution⟩ := happroach
    refine ⟨lookups, execution, recordedAt, record, ?_, hlookups, hexecution⟩
    simp [Plan.conclude, History.recording_record, transcript_request_bind]
  · simpa [Plan.conclude, Orderly, Approaching] using happroach

theorem Plan.log_launch (plan : Plan) (mode : Mode) (options : RunOptions) (x : σ) :
    let run := (plan.launch mode options).transcript w x
    Orderly mode run.log run.result ∧
      (mode = .dryRun → ∀ e ∈ run.log, e.op ≠ .step (.call .commit)) := by
  have happroach := plan.approaching_approach w mode options x
  have hlog := (transcript_of_meets w (plan.meets_approach mode options) x).2
  have hconclude := orderly_conclude w happroach hlog
  rw [plan.launch_eq, transcript_bind]
  generalize (plan.approach mode options).transcript w x = approach at hlog hconclude ⊢
  refine ⟨hconclude _, fun hmode e he => ?_⟩
  rcases List.mem_append.1 he with he | he
  · exact (hlog e he).2 hmode
  · have hlast : (Plan.conclude approach.result).Meets RunRequest.IsRecord fun _ => True := by
      rcases approach.result with e | (⟨report, record⟩ | previous)
      · trivial
      · exact ⟨trivial, fun _ => trivial⟩
      · trivial
    intro hcommit
    have hrecord := (transcript_of_meets w hlast _).2 e he
    rw [hcommit] at hrecord
    exact hrecord

end

/-- The requests of every recorded run are in order, a forecast never commits, and what becomes of
the record changes nothing else. -/
theorem orderly_launch {σ : Type} (w : RunWorld σ) (load : Loader) (cache : Cache)
    (identifier : String) (mode : Mode) (options : RunOptions) (x : σ) :
    let program := (launch load cache identifier mode options).1
    let run := program.transcript w x
    Orderly mode run.log run.result ∧
      (mode = .dryRun → ∀ e ∈ run.log, e.op ≠ .step (.call .commit)) ∧
      ∀ keep, (program.transcript (w.keeping keep) x).result.map RunOutcome.account =
        run.result.map RunOutcome.account := by
  simp only [launch]
  split
  · next e cache' _ =>
    refine ⟨?_, ?_, ?_⟩
    · simp [Orderly]
    · simp
    · simp
  · next plan cache' _ =>
    obtain ⟨horderly, hforecast⟩ := plan.log_launch w mode options x
    refine ⟨horderly, hforecast, fun keep => ?_⟩
    have hagree := transcript_congr w (plan.meets_approach mode options)
      (fun r hr => w.keeping_of_not_isRecord keep hr.1) x
    rw [Plan.account_launch, Plan.account_launch, hagree]

end Entitle
