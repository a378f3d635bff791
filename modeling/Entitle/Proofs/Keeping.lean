import Entitle.Proofs.Halting
import Entitle.Proofs.Ordering
import Entitle.Run.Session

/-!
# Recorded runs and the records of a store

A store that keeps its promises holds a list of records: a record that it accepts comes to the end
of the list, and what it finds is in the list. Any request may fail, and then nothing is kept. With
such a store it can be said what a recorded run adds to the list, and what a record says that makes
another run superfluous.

## Main definitions

* `History.Serves`: what a store that holds records may reply.
* `History.Takes`: what becomes of a record that is given to a store.
* `RunWorld.Keeps`: a world with such a store.
* `Surroundings.world`: a repository and a store of one of the two kinds as a world.

## Main statements

* `History.newest?_eq_some_iff`: what the newest record with a key is.
* `RunWorld.Keeps.unchanged`: how a run ends that is found superfluous.
* `RunWorld.Keeps.records_launch`: what any run adds to the records.
* `Outcome.Shape.of_success`: what an application was like that succeeded.
* `History.Backend.meets_record`: what becomes of a record in a store of one of the two kinds.
* `Surroundings.keeps_world`: stores of both kinds keep their promises, on any host.
* `Surroundings.transcript_run`: what is run on a repository and a store is run in their world.
-/
namespace Entitle

open Dialogue

/-! ## Stores that keep their promises -/

/-- What a store that holds records may reply to a request, and the records after it. -/
inductive History.Serves : List Record → (q : History.Request) → History.Reply q → List Record →
    Prop
  | kept (records : List Record) (r : Record) (id : Nat) :
    Serves records (.record r) (.ok { r with id }) (records ++ [{ r with id }])
  | notKept (records : List Record) (r : Record) (e : StoreError) :
    Serves records (.record r) (.error e) records
  | found (records : List Record) (identity checksum : String) (mode : Mode) :
    Serves records (.latest identity checksum mode) (.ok (newest? records identity checksum mode))
      records
  | notFound (records : List Record) (identity checksum : String) (mode : Mode) (e : StoreError) :
    Serves records (.latest identity checksum mode) (.error e) records
  | listed (records : List Record) (identity : String) (limit : Nat) :
    Serves records (.list identity limit) (.ok ((newestFirst records identity).take limit)) records
  | notListed (records : List Record) (identity : String) (limit : Nat) (e : StoreError) :
    Serves records (.list identity limit) (.error e) records

/-- What may become of a record that is given to a store whose next id is `id`: it is refused, or it
is no duplicate and comes to the end of the records under this id. -/
inductive History.Takes (records : List Record) (r : Record) (id : Nat) :
    Except StoreError Record → List Record → Prop
  | kept (h : duplicate? records r = none) :
    Takes records r id (.ok { r with id }) (records ++ [{ r with id }])
  | refused (e : StoreError) : Takes records r id (.error e) records

theorem History.Takes.serves {records after : List Record} {r : Record} {id : Nat}
    {reply : Except StoreError Record} (h : Takes records r id reply after) :
    Serves records (.record r) reply after := by
  cases h with
  | kept => exact .kept records r id
  | refused e => exact .notKept records r e

/-- The world has a store that keeps its promises. What else is asked leaves the records alone. -/
structure RunWorld.Keeps {σ : Type} (w : RunWorld σ) (view : σ → List Record) : Prop where
  step : ∀ (r : Request) (x : σ), view (w (.step r) x).2 = view x
  history : ∀ (q : History.Request) (x : σ),
    History.Serves (view x) q (w (.history q) x).1 (view (w (.history q) x).2)

namespace RunWorld.Keeps

variable {σ α : Type} {w : RunWorld σ} {view : σ → List Record} (hw : w.Keeps view)
include hw

/-- What is asked besides records to keep leaves the records alone. -/
theorem view_eq {r : RunRequest} (hr : ¬ r.IsRecord) (x : σ) : view (w r x).2 = view x := by
  cases r with
  | step r => exact hw.step r x
  | history q =>
    have h := hw.history q x
    generalize (w (.history q) x).1 = reply at h
    generalize view (w (.history q) x).2 = after at h ⊢
    cases h with
    | kept => exact absurd trivial hr
    | notKept | found | notFound | listed | notListed => rfl

theorem view_transcript {Q : α → Prop} {p : Recording α} (hp : p.Meets (¬ ·.IsRecord) Q) (x : σ) :
    view (p.transcript w x).world = view x :=
  world_of_meets (I := (view · = view x)) w hp (fun _ hr y hy => (hw.view_eq hr y).trans hy) rfl

/-- What is found is the newest record with the key. -/
theorem newest?_eq {identity checksum : String} {mode : Mode} {found : Option Record} {x : σ}
    (h : (w (.history (.latest identity checksum mode)) x).1 = .ok found) :
    found = History.newest? (view x) identity checksum mode := by
  have hserves := hw.history (.latest identity checksum mode) x
  rw [h] at hserves
  generalize view (w (.history (.latest identity checksum mode)) x).2 = after at hserves
  cases hserves
  rfl

/-- A record that is kept comes to the end, and is what was to be kept but for its id. -/
theorem view_of_kept {r stored : Record} {x : σ} (h : (w (.history (.record r)) x).1 = .ok stored) :
    stored = { r with id := stored.id } ∧
      view (w (.history (.record r)) x).2 = view x ++ [stored] := by
  have hserves := hw.history (.record r) x
  rw [h] at hserves
  generalize view (w (.history (.record r)) x).2 = after at hserves ⊢
  cases hserves
  exact ⟨rfl, rfl⟩

theorem view_of_notKept {r : Record} {e : StoreError} {x : σ}
    (h : (w (.history (.record r)) x).1 = .error e) :
    view (w (.history (.record r)) x).2 = view x := by
  have hserves := hw.history (.record r) x
  rw [h] at hserves
  generalize view (w (.history (.record r)) x).2 = after at hserves ⊢
  cases hserves
  rfl

end RunWorld.Keeps

/-! ## The newest record -/

/-- The newest record with a key has it, and no record after it does. -/
theorem History.newest?_eq_some_iff {records : List Record} {identity checksum : String}
    {mode : Mode} {r : Record} :
    newest? records identity checksum mode = some r ↔
      (r.identity = identity ∧ r.checksum = checksum ∧ r.mode = mode) ∧
        ∃ older newer, records = older ++ r :: newer ∧ ∀ r' ∈ newer, r'.sameKey r = false := by
  have hfind : newest? records identity checksum mode = records.reverse.find? fun r' =>
      r'.identity == identity && (r'.checksum == checksum && r'.mode == mode) := by
    simp only [newest?, newestFirst, List.find?_filter, Bool.decide_and, Bool.decide_eq_true]
  have hkey : ∀ r' : Record, r'.sameKey r = (r'.identity == r.identity &&
      (r'.checksum == r.checksum && r'.mode == r.mode)) := fun r' => Bool.and_assoc _ _ _
  rw [hfind, List.find?_eq_some_iff_append]
  constructor
  · rintro ⟨hr, newer, older, hrecords, hnewer⟩
    simp only [Bool.and_eq_true, beq_iff_eq] at hr
    obtain ⟨rfl, rfl, rfl⟩ := hr
    refine ⟨⟨rfl, rfl, rfl⟩, older.reverse, newer.reverse, ?_, fun r' hr' => ?_⟩
    · simpa using congrArg List.reverse hrecords
    · rw [hkey]
      simpa only [Bool.not_eq_true'] using hnewer r' (List.mem_reverse.1 hr')
  · rintro ⟨⟨rfl, rfl, rfl⟩, older, newer, rfl, hnewer⟩
    refine ⟨by simp, newer.reverse, older.reverse, by simp, fun r' hr' => ?_⟩
    have hother := hnewer r' (List.mem_reverse.1 hr')
    rw [hkey] at hother
    simp [hother]

/-! ## How recorded runs end -/

section

variable {σ : Type} (w : RunWorld σ)

/-- The record that is to be kept is that of the report of the plan. It is a rerun if it was asked
for as one or is a repetition. -/
theorem Plan.result_runToRecord {plan : Plan} {mode : Mode} {options : RunOptions}
    {repeated : Bool} {x : σ} {outcome : Report × Record ⊕ Record}
    (h : ((plan.runToRecord mode options repeated).transcript w x).result = .ok outcome) :
    let report := ((plan.execute mode).through w.steps x).result
    ∃ recordedAt, outcome = .inl (report,
      report.toRecord options.principal (options.rerun || repeated) recordedAt) := by
  rw [runToRecord, transcript_bind] at h
  simp only [(Running.transcript_recording w (plan.execute mode) x).1] at h
  generalize ((plan.execute mode).through w.steps x).result = report at h
  generalize ((plan.execute mode).recording.transcript w x).world = y at h
  cases mode with
  | dryRun =>
    cases h
    exact ⟨_, rfl⟩
  | apply =>
    simp only at h
    rw [transcript_bind] at h
    generalize commitChanges.transcript w y = commit at h
    rcases hcommit : commit.result with refusal | done
    · simp [hcommit] at h
    · simp only [hcommit] at h
      cases h
      exact ⟨_, rfl⟩

/-- A run is a repetition if something is on record under its key. -/
theorem Plan.result_proceed {plan : Plan} {mode : Mode} {options : RunOptions} {x : σ}
    {outcome : Report × Record ⊕ Record}
    (h : ((plan.proceed mode options).transcript w x).result = .ok outcome) :
    ∃ found y recordedAt, let report := ((plan.execute mode).through w.steps y).result
      (w (.history (.latest plan.script plan.checksum mode)) x).1 = .ok found ∧
      outcome = .inl (report,
        report.toRecord options.principal (options.rerun || found.isSome) recordedAt) := by
  rw [proceed, History.recording_latest, transcript_request_bind] at h
  simp only at h
  split at h
  · cases h
  · next found hfound =>
    obtain ⟨recordedAt, houtcome⟩ := plan.result_runToRecord w h
    exact ⟨found, _, recordedAt, hfound, houtcome⟩

/-- What a record that makes a run superfluous says: it is the newest application, and it
succeeded. -/
theorem Plan.result_previous? {plan : Plan} {mode : Mode} {options : RunOptions} {x : σ}
    {previous : Record}
    (h : ((plan.previous? mode options).transcript w x).result = .ok (some previous)) :
    mode = .apply ∧
      (w (.history (.latest plan.script plan.checksum .apply)) x).1 = .ok (some previous) ∧
      previous.summary.status = .success := by
  rw [previous?] at h
  split at h
  · next hask =>
    rw [History.recording_lookup, transcript_request_bind] at h
    refine ⟨hask.1, ?_⟩
    cases hfound : (w (.history (.latest plan.script plan.checksum .apply)) x).1 with
    | error e => simp [hfound, Except.map] at h
    | ok found =>
      simp only [hfound, pure_eq, transcript_done, Except.map, settledBy?, Except.ok.injEq,
        Option.filter_eq_some_iff, beq_iff_eq] at h
      exact ⟨congrArg Except.ok h.1, h.2⟩
  · cases h

/-- What a run comes to before its record: a report with a record that is to be kept, or a record
that makes it superfluous. -/
theorem Plan.result_approach {plan : Plan} {mode : Mode} {options : RunOptions} {x : σ}
    {outcome : Report × Record ⊕ Record}
    (h : ((plan.approach mode options).transcript w x).result = .ok outcome) :
    (∃ found y recordedAt, let report := ((plan.execute mode).through w.steps y).result
      (w (.history (.latest plan.script plan.checksum mode))
        ((plan.previous? mode options).transcript w x).world).1 = .ok found ∧
      outcome = .inl (report,
        report.toRecord options.principal (options.rerun || found.isSome) recordedAt)) ∨
    (∃ previous, outcome = .inr previous ∧ mode = .apply ∧
      (w (.history (.latest plan.script plan.checksum .apply)) x).1 = .ok (some previous) ∧
      previous.summary.status = .success) := by
  rw [approach, transcript_bind] at h
  simp only at h
  rcases hprevious : ((plan.previous? mode options).transcript w x).result with e | (_ | previous)
  · simp [hprevious] at h
  · simp only [hprevious] at h
    exact .inl (plan.result_proceed w h)
  · simp only [hprevious, pure_eq, transcript_done, Except.ok.injEq] at h
    exact .inr ⟨previous, h.symm, plan.result_previous? w hprevious⟩

end

namespace RunWorld.Keeps

variable {σ : Type} {w : RunWorld σ} {view : σ → List Record} (hw : w.Keeps view)
include hw

theorem view_approach (plan : Plan) (mode : Mode) (options : RunOptions) (x : σ) :
    view ((plan.approach mode options).transcript w x).world = view x :=
  hw.view_transcript ((plan.meets_approach mode options).mono (fun _ h => h.1) fun _ h => h) x

/-- A run that is found superfluous is an application of a plan whose newest application succeeded.
It has only looked that up, and leaves no record. -/
theorem unchanged {plan : Plan} {mode : Mode} {options : RunOptions} {x : σ} {previous : Record}
    (h : ((plan.launch mode options).transcript w x).result = .ok (.unchanged previous)) :
    mode = .apply ∧ History.newest? (view x) plan.script plan.checksum .apply = some previous ∧
      previous.summary.status = .success ∧
      view ((plan.launch mode options).transcript w x).world = view x := by
  have hview := hw.view_approach plan mode options x
  rw [plan.launch_eq, transcript_bind] at h ⊢
  rcases happroach : ((plan.approach mode options).transcript w x).result with
    e | (⟨report, record⟩ | found)
  · simp [happroach, Plan.conclude] at h
  · simp [happroach, Plan.conclude, History.recording_record, transcript_request_bind] at h
  · obtain ⟨_, _, _, -, hfound⟩ | ⟨_, hfound, hmode, hreply, hstatus⟩ :=
      plan.result_approach w happroach
    · cases hfound
    · cases hfound
      simp only [happroach, Plan.conclude, pure_eq, transcript_done, Except.ok.injEq,
        RunOutcome.unchanged.injEq] at h
      subst h
      exact ⟨hmode, (hw.newest?_eq hreply).symm, hstatus, by simp [Plan.conclude, hview]⟩

/-- A run leaves the records alone, or adds the record of the report that it ends with. -/
theorem records_launch (plan : Plan) (mode : Mode) (options : RunOptions) (x : σ) :
    let run := (plan.launch mode options).transcript w x
    view run.world = view x ∨
      ∃ y stored, let report := ((plan.execute mode).through w.steps y).result
        run.result = .ok (.executed report (.ok stored)) ∧ view run.world = view x ++ [stored] ∧
        stored.identity = report.script ∧ stored.checksum = report.checksum ∧
        stored.mode = report.mode ∧ stored.summary = report.summary := by
  have hview := hw.view_approach plan mode options x
  simp only
  rw [plan.launch_eq, transcript_bind]
  simp only
  rcases happroach : ((plan.approach mode options).transcript w x).result with
    e | (⟨report, record⟩ | found)
  · exact .inl (by simp [Plan.conclude, hview])
  · obtain ⟨found, y, recordedAt, -, houtcome⟩ | ⟨previous, hprevious, -⟩ :=
      plan.result_approach w happroach
    · cases houtcome
      simp only [Plan.conclude, History.recording_record, transcript_request_bind, pure_eq,
        transcript_done]
      generalize ((plan.approach mode options).transcript w x).world = z at hview ⊢
      cases haudit : (w (.history (.record (Report.toRecord
          ((plan.execute mode).through w.steps y).result options.principal
          (options.rerun || found.isSome) recordedAt))) z).1 with
      | error e => exact .inl ((hw.view_of_notKept haudit).trans hview)
      | ok stored =>
        obtain ⟨hstored, hafter⟩ := hw.view_of_kept haudit
        exact .inr ⟨y, stored, rfl, hafter.trans (by rw [hview]),
          congrArg Record.identity hstored, congrArg Record.checksum hstored,
          congrArg Record.mode hstored, congrArg Record.summary hstored⟩
    · cases hprevious
  · exact .inl (by simp [Plan.conclude, hview])

end RunWorld.Keeps

/-! ## Reports -/

/-- In an application that succeeded nobody cancelled the run, and every action was settled. -/
theorem Outcome.Shape.of_success {outcomes : List Outcome} {cancelled : Bool}
    (hshape : Outcome.Shape .apply outcomes cancelled)
    (hstatus : Status.ofOutcomes outcomes cancelled = .success) :
    cancelled = false ∧ ∀ o ∈ outcomes, o.isFailed = false ∧ o.isNotAttempted = false := by
  obtain ⟨hnone, hcancelled⟩ := Status.ofOutcomes_eq_success_iff.1 hstatus
  obtain ⟨done, failed, left, rfl, hdone, ⟨-, hfailed⟩, -, -, hleft⟩ := hshape
  have hfailed' : failed = [] := by
    refine List.eq_nil_iff_forall_not_mem.2 fun o ho => ?_
    have h := hnone o (by simp [ho])
    rw [hfailed o ho] at h
    cases h
  have hleft' : left = [] := by
    by_contra hne
    exact (hleft hne).elim (fun h => h hfailed') (by simp [hcancelled])
  subst hfailed' hleft'
  refine ⟨hcancelled, fun o ho => ⟨hnone o ho, ?_⟩⟩
  have hsettled := hdone o (by simpa using ho)
  cases o with
  | notAttempted => cases hsettled
  | applied | skipped | failed => rfl

section

variable {σ : Type} (w : World σ)

/-- A report is about its plan. -/
theorem Plan.report_execute (plan : Plan) (mode : Mode) (x : σ) :
    let report := ((plan.execute mode).through w x).result
    report.script = plan.script ∧ report.checksum = plan.checksum ∧ report.mode = mode := by
  rw [plan.through_execute]
  exact ⟨rfl, rfl, rfl⟩

/-- The outcomes in a report have the shape of its mode. -/
theorem Plan.shape_execute (plan : Plan) (mode : Mode) (x : σ) :
    let report := ((plan.execute mode).through w x).result
    Outcome.Shape mode report.outcomes report.cancelled := by
  rw [plan.through_execute]
  exact (PlannedAction.goes_runAll w mode .empty plan.actions _).shape

end

/-! ## Both kinds of stores -/

namespace History

/-- A store in memory counts its records. -/
theorem takes_memory (r : Record) (records : List Record) : Takes records r (records.length + 1)
    (Memory.answer (.record r) records).1 (Memory.answer (.record r) records).2 := by
  cases h : duplicate? records r with
  | some e => simpa [Memory.answer, Memory.append, h] using .refused e
  | none => simpa [Memory.answer, Memory.append, h] using .kept h

/-- A store in memory keeps its promises. -/
theorem serves_memory (q : Request) (records : List Record) :
    Serves records q (Memory.answer q records).1 (Memory.answer q records).2 := by
  cases q with
  | record r => exact (takes_memory r records).serves
  | latest identity checksum mode => exact .found records identity checksum mode
  | list identity limit => exact .listed records identity limit

end History

/-- A request about a file, or for a directory. -/
def Host.Request.About (file : String) : Host.Request → Prop
  | .read name | .write name _ | .openAppend name | .length name | .setLength name _
  | .append name _ | .sync name => name = file
  | .makeDirectory _ => True
  | .realName _ | .now => False

namespace Journal

variable {α β : Type} {P : Host.Request → Prop}

theorem meets_step {q : Hosted (Except FileError α)} (h : q.Meets P fun _ => True) :
    (step q).run.Meets P fun _ => True := by
  refine meets_bind h fun reply _ => ?_
  cases reply <;> trivial

theorem meets_run_bind {Q : Except StoreError β → Prop} {s : Step α} {f : α → Step β}
    (hs : s.run.Meets P fun _ => True) (hf : ∀ a, (f a).run.Meets P Q)
    (herror : ∀ e, Q (.error e)) : (s >>= f).run.Meets P Q := by
  refine meets_bind hs fun result _ => ?_
  cases result with
  | ok a => exact hf a
  | error e => exact herror e

theorem meets_prepare (file : String) :
    (prepare file).run.Meets (Host.Request.About file) fun _ => True := by
  have hopen : (step (Host.ask (.openAppend file))).run.Meets (Host.Request.About file)
      fun _ => True := meets_step (meets_request.2 ⟨rfl, fun _ => trivial⟩)
  rw [prepare]
  split
  · exact hopen
  · exact meets_run_bind (meets_step (meets_request.2 ⟨trivial, fun _ => trivial⟩))
      (fun _ => hopen) fun _ => trivial

/-- Cutting off an unfinished line changes nothing else. -/
theorem meets_cutTorn (j : Journal) : j.cutTorn.run.Meets (Host.Request.About j.file)
    fun r => ∀ j', r = .ok j' → j' = { j with tornAt := none } := by
  rw [cutTorn]
  cases h : j.tornAt with
  | none =>
    rintro j' ⟨⟩
    rw [← h]
  | some length =>
    refine meets_run_bind (meets_step (meets_request.2 ⟨rfl, fun _ => trivial⟩)) (fun _ => ?_) ?_
    · rintro j' ⟨⟩
      rfl
    · rintro e j' ⟨⟩

theorem meets_appendLine (file line : String) :
    (appendLine file line).run.Meets (Host.Request.About file) fun _ => True := by
  refine meets_run_bind (meets_step (meets_request.2 ⟨rfl, fun _ => trivial⟩)) (fun before => ?_)
    fun _ => trivial
  refine meets_bind (Q := fun _ => True) ?_ fun written _ => ?_
  · refine meets_bind (meets_request.2 ⟨rfl, fun _ => trivial⟩) fun reply _ => ?_
    cases reply with
    | error e => trivial
    | ok _ => exact meets_request.2 ⟨rfl, fun _ => trivial⟩
  · cases written with
    | ok _ => trivial
    | error e => exact ⟨rfl, fun _ => trivial⟩

/-- Keeping a record asks of the file of the journal and for directories. Whatever the host does,
the record comes to the end under the next id or is refused, and the journal keeps its file. -/
theorem meets_append (j : Journal) (r : Record) :
    (j.append r).Meets (Host.Request.About j.file) fun after =>
      History.Takes j.records r (nextId j.records) after.1 after.2.records ∧
        after.2.file = j.file := by
  have hready : (do prepare j.file; j.cutTorn : Step Journal).run.Meets (Host.Request.About j.file)
      fun ready => ∀ j', ready = .ok j' → j' = { j with tornAt := none } :=
    meets_run_bind (meets_prepare j.file) (fun _ => j.meets_cutTorn) fun e j' h => by cases h
  rw [append]
  split
  · next e _ => exact ⟨.refused e, rfl⟩
  · next hnew =>
    refine meets_bind hready fun ready hcut => ?_
    cases ready with
    | error e => exact ⟨.refused e, rfl⟩
    | ok j' =>
      obtain rfl := hcut j' rfl
      refine meets_bind (meets_appendLine j.file _) fun written _ => ?_
      cases written with
      | error e => exact ⟨.refused e, rfl⟩
      | ok _ => exact ⟨.kept hnew, rfl⟩

end Journal

/-- The records of a store. -/
def History.Backend.records : Backend → List Record
  | memory records => records
  | journal j => j.records

/-- The id of the next record. -/
def History.Backend.nextId : Backend → Nat
  | memory records => records.length + 1
  | journal j => Journal.nextId j.records

/-- A record that is given to a store of either kind comes to the end under the next id, or is
refused. -/
theorem History.Backend.meets_record (r : Record) (b : Backend) :
    ((answer (.record r)).run b).Meets (fun _ => True)
      fun after => Takes b.records r b.nextId after.1 after.2.records := by
  cases b with
  | memory records => exact takes_memory r records
  | journal j =>
    exact meets_bind ((j.meets_append r).mono (fun _ _ => trivial) fun _ h => h) fun _ h => h.1

/-- A store of either kind keeps its promises, whatever the host does. -/
theorem History.Backend.meets_answer (q : History.Request) (b : Backend) :
    ((answer q).run b).Meets (fun _ => True)
      fun after => Serves b.records q after.1 after.2.records := by
  cases q with
  | record r => exact (b.meets_record r).mono (fun _ _ => trivial) fun _ h => h.serves
  | latest identity checksum mode =>
    cases b with
    | memory records => exact .found records identity checksum mode
    | journal j => exact .found j.records identity checksum mode
  | list identity limit =>
    cases b with
    | memory records => exact .listed records identity limit
    | journal j => exact .listed j.records identity limit

/-- A store without a defect replies as it does. -/
theorem History.Defect.answer_none {m : Type → Type} [Monad m]
    (inner : (q : History.Request) → m (History.Reply q)) : none.answer inner = inner := by
  funext q
  cases q <;> rfl

namespace Surroundings

variable {η : Type} (host : (q : Host.Request) → StateM η (Host.Reply q))

/-- A repository and a store without defects as a world, on a host with a state of its own. -/
def world : RunWorld ((Bench × History.Backend) × η) :=
  fun r x =>
    let after := ((answer r).run ⟨x.1.1, x.1.2, .none⟩).transcript host x.2
    (after.result.1, (after.result.2.bench, after.result.2.store), after.world)

/-- What a run asks besides leaves the store alone. -/
theorem meets_answer_step (r : Request) (s : Surroundings) :
    ((answer (.step r)).run s).Meets (fun _ => True) fun after => after.2.store = s.store :=
  meets_bind (meets_true _) fun _ _ => rfl

theorem meets_answer_history (q : History.Request) (s : Surroundings) (hs : s.defect = .none) :
    ((answer (.history q)).run s).Meets (fun _ => True)
      fun after => History.Serves s.store.records q after.1 after.2.store.records := by
  have hanswer : s.defect.answer History.Backend.answer q = History.Backend.answer q := by
    rw [hs, History.Defect.answer_none]
  have hserves := s.store.meets_answer q
  rw [← hanswer] at hserves
  exact meets_bind hserves fun _ h => h

/-- In such a world the store keeps its promises. -/
theorem keeps_world : (world host).Keeps (·.1.2.records) where
  step r x := by
    obtain ⟨hstore, -⟩ := transcript_of_meets host (meets_answer_step r ⟨x.1.1, x.1.2, .none⟩) x.2
    exact congrArg History.Backend.records hstore
  history q x :=
    (transcript_of_meets host (meets_answer_history q ⟨x.1.1, x.1.2, .none⟩ rfl) x.2).1

theorem meets_answer_defect (r : RunRequest) (s : Surroundings) :
    ((answer r).run s).Meets (fun _ => True) fun after => after.2.defect = s.defect := by
  cases r with
  | step r => exact meets_bind (meets_true _) fun _ _ => rfl
  | history q => exact meets_bind (meets_true _) fun _ _ => rfl

/-- A recorded run on a repository and a store goes as it does in their world. -/
theorem transcript_run {α : Type} (p : Recording α) (b : Bench) (store : History.Backend) (y : η) :
    let run := (run p ⟨b, store, .none⟩).transcript host y
    let passage := p.transcript (world host) ((b, store), y)
    run.result = (passage.result, ⟨passage.world.1.1, passage.world.1.2, .none⟩) ∧
      run.world = passage.world.2 := by
  induction p generalizing b store y with
  | done a => exact ⟨rfl, rfl⟩
  | ask r next ih =>
    have hdefect := (transcript_of_meets host (meets_answer_defect r ⟨b, store, .none⟩) y).1
    have hrun : run (.ask r next) ⟨b, store, .none⟩ =
        (answer r).run ⟨b, store, .none⟩ >>= fun after => run (next after.1) after.2 := rfl
    simp only [hrun, transcript_bind, transcript, world]
    generalize ((answer r).run ⟨b, store, .none⟩).transcript host y = first at hdefect ⊢
    obtain ⟨⟨reply, bench, store', defect⟩, log, y'⟩ := first
    obtain rfl : defect = .none := hdefect
    exact ih reply bench store' y'

end Surroundings

end Entitle
